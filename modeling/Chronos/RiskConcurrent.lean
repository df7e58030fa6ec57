import Chronos.RiskHotReads

namespace Chronos.RiskEngine
open Seqlock

variable {Tid F : Type} [Double F]

def Apart (s : State Tid F) (e : Event Tid F) : Prop := e.updater.isSome → ∀ u, (s.threads u).updating = false

instance [Fintype Tid] (s : State Tid F) (e : Event Tid F) : Decidable (Apart s e) :=
  inferInstanceAs (Decidable (_ → _))

section Steps
variable [DecidableEq Tid] {w : Tid} {hot₀ : HotParams} {cold₀ : ColdParams F} {es : List (Event Tid F)}
variable {e : Event Tid F} {s s' : State Tid F}

def ApartStep (s : State Tid F) (e : Event Tid F) (s' : State Tid F) : Prop := Step s e s' ∧ Apart s e

theorem Sole.hand (sole : Sole w hot₀ cold₀ es s) (calm : ∀ t, (s.threads t).reading) (u : Tid) :
    Sole u hot₀ cold₀ es s := by
  refine ⟨fun t _ => calm t,?_,?_,sole.version,sole.served⟩
  · rw [darkAt_reading (calm u)]
    exact (darkAt_reading (calm w)).mp sole.dark
  · rw [stageAt_reading (calm u)]
    exact (stageAt_reading (calm w)).mp sole.stage

theorem writerTurn_ends {s : Shared F} {x : Writer F} (ends : (writerTurn s x).2.reading) :
    ∃ p i, x = .back p i [] := by
  cases x with
  | back p i rest =>
    cases rest with
    | nil => exact ⟨p,i,rfl⟩
    | cons => cases ends
  | fill p i rest | build p i rest | copy p i rest => cases rest <;> cases ends
  | darkStore | openLoad | openStore | closeStore | swapLoad | swapStore | flipLoad | flipStore | backLoad => cases ends

structure Orderly (hot₀ : HotParams) (cold₀ : ColdParams F) (es : List (Event Tid F)) (s : State Tid F) : Prop where
  sole : ∃ w, Sole w hot₀ cold₀ es s
  active : (∀ t, (s.threads t).reading) → ∀ p, (updates es).getLast? = some p → Holds (s.shared.cold s.shared.active) p

omit [Double F] in
theorem reading_before {t : Tid} {shared : Shared F} {l : Local F} (calm : ∀ u, ((s.move t shared l).threads u).reading)
    (mine : (s.threads t).reading) (u : Tid) : (s.threads u).reading := by
  by_cases same : u = t
  · subst u; exact mine
  · have other := calm u
    rwa [move_other _ _ _ same] at other

theorem Orderly.step (orderly : Orderly hot₀ cold₀ es s) (step : ApartStep s e s') :
    Orderly hot₀ cold₀ (es++[e]) s' := by
  obtain ⟨⟨w,sole⟩,active⟩ := orderly
  obtain ⟨step,apart⟩ := step
  constructor
  · cases updater : e.updater with
    | none => exact ⟨w,sole.step (by simp [updater]) step⟩
    | some t =>
      have calm : ∀ u, (s.threads u).reading := fun u => reading_iff.mpr (apart (by simp [updater]) u)
      exact ⟨t,(sole.hand calm t).step (by simp [updater]) step⟩
  · intro calm p last
    cases step with
    | @call t op free =>
      have before := reading_before calm (by rw [free]; trivial)
      cases op with
      | update q =>
        have writing := calm t
        rw [move_self] at writing
        cases writing
      | readHot | readCold => exact active before p (by simpa [updates_snoc,Event.updated] using last)
    | @turn t l shared l' at_ moved =>
      have same : (updates es).getLast? = some p := by simpa [updates_snoc,Event.updated] using last
      by_cases reads : l.reading
      · obtain ⟨rfl,_⟩ := turn_reading reads moved
        exact active (reading_before calm (by rw [at_]; exact reads)) p same
      · obtain ⟨rfl,x,rfl⟩ := sole.turn_writer at_ reads
        have dark := sole.dark
        have stage := sole.stage
        rw [at_] at dark stage
        obtain ⟨rfl,rfl⟩ := writer_moved moved
        have ends := calm t
        rw [move_self] at ends
        obtain ⟨q,i,rfl⟩ := writerTurn_ends ends
        obtain rfl := Option.some.inj (stage.1.symm.trans same)
        exact dark.2.2

theorem runs_orderly {cold : Fin 2 → ColdParams F} (some : Nonempty Tid)
    (path : Runs ApartStep (initial hot₀ cold) es s) : Orderly hot₀ (cold 0) es s := by
  obtain ⟨w⟩ := some
  refine path.preserves_history (Orderly hot₀ (cold 0)) (fun _ _ _ _ orderly step => orderly.step step) ?_
  exact ⟨⟨w,initial_sole w hot₀ cold⟩,fun _ p last => by cases last⟩

end Steps

-- What updateParameters promises: the version is odd while a thread copies into
-- hot_params_; between calls it is even, and the limits in force are those of one
-- published set, the one the active buffer holds.
structure UpdatesSafe (es : List (Event Tid F)) (s : State Tid F) : Prop where
  odd : ∀ t p dark rest, s.threads t = .writer (.copy p dark rest) → s.shared.version &&& 1 = 1
  even : (∀ t, (s.threads t).updating = false) → s.shared.version &&& 1 = 0
  published : (∀ t, (s.threads t).updating = false) → updates es ≠ [] →
    ∃ p ∈ updates es, s.shared.hot = buildHot p ∧ (s.shared.cold s.shared.active).params = p

theorem Orderly.safe [DecidableEq Tid] {hot₀ : HotParams} {cold₀ : ColdParams F} {es : List (Event Tid F)}
    {s : State Tid F} (orderly : Orderly hot₀ cold₀ es s) : UpdatesSafe es s := by
  obtain ⟨⟨w,sole⟩,active⟩ := orderly
  refine ⟨fun t p dark rest copies => ?_,fun done => ?_,fun done some => ?_⟩
  · have mine : t = w := by
      by_contra other
      have reads := sole.lone t other
      rw [copies] at reads
      cases reads
    have stage := sole.stage
    rw [← mine,copies] at stage
    obtain ⟨⟨_,count⟩,_⟩ := stage
    rw [sole.version,word_odd,BitVec.toNat_ofNat]
    omega
  · obtain ⟨count,_⟩ := (stageAt_reading (reading_iff.mpr (done w))).mp sole.stage
    rw [sole.version,word_even,BitVec.toNat_ofNat]
    omega
  · obtain ⟨_,hot⟩ := (stageAt_reading (reading_iff.mpr (done w))).mp sole.stage
    have last := List.getLast?_eq_some_getLast some
    rw [sets_last last] at hot
    refine ⟨_,List.getLast_mem some,(Option.some.inj hot).symm,?_⟩
    exact (active (fun t => reading_iff.mpr (done t)) _ last).1

theorem updates_safe {Tid F : Type} [Double F] [DecidableEq Tid] {hot₀ : HotParams} {cold : Fin 2 → ColdParams F}
    {es : List (Event Tid F)} {s : State Tid F} (path : Runs ApartStep (initial hot₀ cold) es s) : UpdatesSafe es s := by
  cases isEmpty_or_nonempty Tid with
  | inl none =>
    cases es with
    | nil =>
      obtain rfl := path.nil_inv
      exact ⟨fun t => none.elim t,fun _ => (word_even 0).mpr rfl,fun _ some => absurd rfl some⟩
    | cons e es => cases e with | call t | turn t => exact none.elim t
  | inr some => exact (runs_orderly some path).safe

def advanceApart [Fintype Tid] [DecidableEq Tid] (s : State Tid F) (choice : Tid × Option (Call F)) :
    Option (Event Tid F × State Tid F) := (advance s choice).filter fun (e,_) => Apart s e

theorem advanceApart_sound [Fintype Tid] [DecidableEq Tid] (s : State Tid F) (choice : Tid × Option (Call F))
    (e : Event Tid F) (s' : State Tid F) (checked : advanceApart s choice = some (e,s')) : ApartStep s e s' := by
  obtain ⟨moved,apart⟩ := Option.filter_eq_some_iff.mp checked
  exact ⟨advance_sound s choice e s' moved,by simpa using apart⟩

-- Both threads take buffer 1 for the dark one and the version for 0. One has
-- closed its write when the other has copied two of its five fields.
def overlapping : List (Bool × Option (Call Rat)) :=
  [(false,some (.update fives))]++turns false 3++[(true,some (.update nines))]++turns true 6++turns false 10++
    turns true 7++turns false 2++turns true 2++turns false 1++turns true 3++turns false 7

def overlapped : List (Bool × Option (Call Rat)) := overlapping++turns true 5++turns false 11++turns true 11

def oneByOne : List (Bool × Option (Call Rat)) :=
  [(false,some (.update fives))]++turns false 34++[(true,some (.update nines))]++turns true 34

theorem updates_safe_oneByOne :
    ∃ follows : (play advanceApart (initial zeros buffers) oneByOne).isSome,
      UpdatesSafe ((play advanceApart (initial zeros buffers) oneByOne).get follows).1
        ((play advanceApart (initial zeros buffers) oneByOne).get follows).2 :=
  ⟨by decide +kernel,updates_safe (play_get advanceApart_sound (by decide +kernel))⟩

theorem overlapping_unsafe :
    ∃ (begun : (play advance (initial zeros buffers) overlapping).isSome)
      (ended : (play advance (initial zeros buffers) overlapped).isSome),
      let middle := (play advance (initial zeros buffers) overlapping).get begun
      let run := (play advance (initial zeros buffers) overlapped).get ended
      Runs Step (initial zeros buffers) middle.1 middle.2 ∧
        (middle.2.threads true).halfCopied = true ∧ middle.2.shared.version &&& 1 = 0 ∧
        Runs Step (initial zeros buffers) run.1 run.2 ∧
        (∀ t, (run.2.threads t).updating = false) ∧ run.2.shared.version &&& 1 = 1 ∧
        (∀ p ∈ updates run.1, ∃ l ∈ Limit.all, run.2.shared.hot l ≠ buildHot p l) ∧
        (∃ l ∈ Limit.all, run.2.shared.hot l ≠ buildHot (run.2.shared.cold run.2.shared.active).params l) ∧
        ¬ UpdatesSafe run.1 run.2 := by
  refine ⟨by decide +kernel,by decide +kernel,play_get advance_sound _,by decide +kernel,by decide +kernel,
    play_get advance_sound _,by decide +kernel,by decide +kernel,by decide +kernel,by decide +kernel,?_⟩
  intro safe
  exact absurd (safe.even (by decide +kernel)) (by decide +kernel)

end Chronos.RiskEngine
