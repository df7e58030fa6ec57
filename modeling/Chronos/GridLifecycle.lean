import Chronos.GridLedger

namespace Chronos.GridStrategy

variable {F : Type} [Double F] {n : Nat}

def Event.loads (on : Bool) (e : Event n) : Bool :=
  match e.callback with
  | .onLoad => true
  | .onUnload => false
  | _ => on

def loaded (es : List (Event n)) : Bool := es.foldl Event.loads false

def Move.trades : Move n → Bool
  | .submit _ _ _ | .cancel _ _ _ _ => true
  | .filled _ _ => false

def TradesLoaded : List (Event n) → Prop :=
  Each fun earlier e => loaded earlier = false → ∀ m ∈ e.moves, m.trades = false

-- A fill that arrives while the strategy is not loaded is owed no counter-order:
-- its order is in no slot, or next to no level.
def UnloadedFillsIdle (cfg : Config F) : List (Event (cfg.gridLevels+1).toNat) → Prop :=
  Each fun earlier e => loaded earlier = false → ∀ g, Runs Step (initial cfg) earlier g →
    ∀ fill ∈ e.fill, counterSlot g fill = none

theorem step_loads {g g' : Strategy F n} {e : Event n} (step : Step g e g') : g'.initialized = e.loads g.initialized := by
  cases step_explained step with
  | load | unload => rfl
  | tick ticked => exact ticked.steady.2.1
  | fill _ steady => exact steady.2.1
  | timer expired => exact expired.steady.2.1

theorem runs_loaded {cfg : Config F} {es : List (Event (cfg.gridLevels+1).toNat)} {g : Strategy F (cfg.gridLevels+1).toNat}
    (path : Runs Step (initial cfg) es g) : g.initialized = loaded es := by
  induction path with
  | nil => rfl
  | step _ taken ih =>
    rw [step_loads taken,ih,loaded,loaded,List.foldl_append]
    rfl

-- onTick and onTimer look at initialized_ first; onFill does not.
theorem step_trades {g g' : Strategy F n} {e : Event n} (step : Step g e g') (off : g.initialized = false) :
    (∀ m ∈ e.moves, m.trades = false) ↔ ∀ fill ∈ e.fill, counterSlot g fill = none := by
  obtain ⟨callback,moves⟩ := e
  cases callback with
  | onLoad | onUnload => cases step; simp [Event.fill]
  | onTick answers | onTimer answers =>
    simp only [Step,deliver,onTick,onTimer,off,Bool.false_eq_true,if_false] at step
    cases step
    simp [Event.fill]
  | onFill fill answers =>
    cases step_explained step with
    | fill counter =>
      unfold counterMoves at counter
      cases next : counterSlot g fill with
      | none =>
        simp only [next] at counter
        subst counter
        simp [Move.trades,Event.fill,next]
      | some k =>
        simp only [next] at counter
        obtain ⟨price,rfl⟩ := counter
        simp [Move.trades,Event.fill,next]

theorem trades_loaded_iff {F : Type} [Double F] {cfg : Config F} {es : List (Event (cfg.gridLevels+1).toNat)}
    {g : Strategy F (cfg.gridLevels+1).toNat} (path : Runs Step (initial cfg) es g) :
    TradesLoaded es ↔ UnloadedFillsIdle cfg es := by
  refine Each.congr fun earlier e later shape => forall_congr' fun off => ?_
  subst shape
  obtain ⟨before,after,front,step,_⟩ := path.split_at
  rw [step_trades step ((runs_loaded front).trans off)]
  constructor
  · intro idle g' other
    rwa [other.deterministic step_functional front]
  · intro idle
    exact idle before front

def filledUnloaded : List Callback :=
  [.onLoad,.onTick {mid := hundred, ids := [1,2]},.onUnload,.onFill (whole 1) {mid := hundred, ids := [3]}]

theorem trades_loaded_iff_filledUnloaded :
    ∃ follows : (play follow (initial pair) filledUnloaded).isSome,
      let run := (play follow (initial pair) filledUnloaded).get follows
      TradesLoaded run.1 ↔ UnloadedFillsIdle pair run.1 :=
  ⟨by decide +kernel,trades_loaded_iff (play_get follow_sound (by decide +kernel))⟩

theorem filledUnloaded_trades :
    ∃ follows : (play follow (initial pair) filledUnloaded).isSome,
      let run := (play follow (initial pair) filledUnloaded).get follows
      Runs Step (initial pair) run.1 run.2 ∧ (accepted run.1).Nodup ∧
        (∀ oid ∈ filled run.1, oid ∈ accepted run.1) ∧ ¬ TradesLoaded run.1 := by
  refine ⟨by decide +kernel,play_get follow_sound _,by decide +kernel,by decide +kernel,?_⟩
  unfold TradesLoaded
  decide +kernel

end Chronos.GridStrategy
