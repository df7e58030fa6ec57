import Chronos.GridLedger

namespace Chronos.GridStrategy

variable {F : Type} [Double F] {n : Nat}

def Handled (e : Event n) (fill : Fill) : Prop :=
  ∃ k, .filled fill (some k) ∈ e.moves ∧
    ∀ k' ∈ neighbour k, ∃ order answer, order.side = k'.1 ∧ .submit k'.2 order answer ∈ e.moves

def LateFillsHandled : List (Event n) → Prop :=
  Each fun earlier e => ∀ fill ∈ e.fill, fill.orderId ∈ cancelled earlier → Handled e fill

def NoLateFill : List (Event n) → Prop :=
  Each fun earlier e => ∀ fill ∈ e.fill, fill.orderId ∉ cancelled earlier

-- onTimer has emptied the slot, so onFill does not find the order.
theorem late_fill_dropped {cfg : Config F} {earlier later : List (Event (cfg.gridLevels+1).toNat)}
    {e : Event (cfg.gridLevels+1).toNat} {g : Strategy F (cfg.gridLevels+1).toNat}
    (path : Runs Step (initial cfg) (earlier++e::later) g) (fresh : (accepted (earlier++e::later)).Nodup)
    (fills : e.fill = some fill) (asked : fill.orderId ∈ cancelled earlier) : e.moves = [.filled fill none] := by
  obtain ⟨before,after,front,step,_⟩ := path.split_at
  have unknown := left_slots front (fresh_front fresh) (.inl asked)
  obtain ⟨callback,moves⟩ := e
  cases callback with
  | onLoad | onUnload | onTick | onTimer => cases fills
  | onFill fill' answers =>
    cases fills
    rw [Step,deliver_unknown unknown] at step
    exact (Prod.mk.inj step).2.symm

theorem late_fills_handled_iff {F : Type} [Double F] {cfg : Config F} {es : List (Event (cfg.gridLevels+1).toNat)}
    {g : Strategy F (cfg.gridLevels+1).toNat} (path : Runs Step (initial cfg) es g) (fresh : (accepted es).Nodup) :
    LateFillsHandled es ↔ NoLateFill es := by
  refine Each.congr fun earlier e later shape => ?_
  subst shape
  constructor
  · intro handled fill fills asked
    obtain ⟨k,found,_⟩ := handled fill fills asked
    rw [late_fill_dropped path fresh fills asked] at found
    simp at found
  · intro none fill fills asked
    exact absurd asked (none fill fills)

def fallen : Option Decimal := some ⟨80*2^32,by decide,by decide⟩

def refusedCancel : List Callback :=
  [.onLoad,.onTick {mid := hundred, ids := [1,2]},.onTimer {mid := fallen, confirms := [false]},
   .onFill (whole 1) {mid := fallen, ids := [3]}]

theorem late_fills_handled_iff_refusedCancel :
    ∃ follows : (play follow (initial pair) refusedCancel).isSome,
      let run := (play follow (initial pair) refusedCancel).get follows
      LateFillsHandled run.1 ↔ NoLateFill run.1 :=
  ⟨by decide +kernel,late_fills_handled_iff (play_get follow_sound (by decide +kernel)) (by decide +kernel)⟩

theorem refusedCancel_unhandled :
    ∃ follows : (play follow (initial pair) refusedCancel).isSome,
      let run := (play follow (initial pair) refusedCancel).get follows
      Runs Step (initial pair) run.1 run.2 ∧ (accepted run.1).Nodup ∧
        (∀ oid ∈ filled run.1, oid ∈ accepted run.1) ∧ .cancel .buy ⟨0,by decide⟩ 1 false ∈ history run.1 ∧
        ¬ LateFillsHandled run.1 := by
  refine ⟨by decide +kernel,play_get follow_sound _,by decide +kernel,by decide +kernel,by decide +kernel,?_⟩
  intro handled
  have late : Handled _ (whole 1) := handled.at ⟨3,by decide +kernel⟩ _ rfl (by decide +kernel)
  obtain ⟨k,found,_⟩ := late
  have dropped : ∀ m ∈ (((play follow (initial pair) refusedCancel).get (by decide +kernel)).1.get ⟨3,by decide +kernel⟩).moves,
      m = .filled (whole 1) none := by decide +kernel
  cases dropped _ found

end Chronos.GridStrategy
