import Chronos.ExactPrices

namespace Chronos.GridStrategy

def Profits (slack paid asked : Rat) : OrderSide → Prop
  | .buy => paid-slack ≤ asked
  | .sell => asked ≤ paid+slack

def TakesProfit (slack : Rat) : List (Event n) → Prop :=
  Each fun _ e => ∀ fill k, .filled fill (some k) ∈ e.moves → ∀ i order answer, .submit i order answer ∈ e.moves →
    Profits slack (toDouble fill.fillPrice) (toDouble order.price) k.1

-- A fill whose order has a level next to it is covered by the price of that
-- level, and by a positive mid.
def FillCovered (slack : Rat) (cfg : Config Rat) (g : Strategy Rat (cfg.gridLevels+1).toNat) : Callback → Prop
  | .onFill fill answers => ∀ k k', slotOf fill.orderId g.levels = some k → neighbour k = some k' →
      Profits slack (toDouble fill.fillPrice) (levelPrice cfg k'.2) k.1 ∧
        ∀ mid ∈ answers.mid, 0 < (toDouble mid : Rat) → Profits slack (toDouble fill.fillPrice) (toDouble mid) k.1
  | _ => True

def FillsCovered (slack : Rat) (cfg : Config Rat) : List (Event (cfg.gridLevels+1).toNat) → Prop :=
  Each fun earlier e => ∀ g, Runs Step (initial cfg) earlier g → FillCovered slack cfg g e.callback

section Steps
variable {cfg : Config Rat} {earlier : List (Event (cfg.gridLevels+1).toNat)} {before : Strategy Rat (cfg.gridLevels+1).toNat}

theorem opposite_sides {side other : OrderSide} (different : other ≠ side) :
    side = .buy ∧ other = .sell ∨ side = .sell ∧ other = .buy := by
  cases side <;> cases other <;> simp at different ⊢

theorem profits_counterPrice {side other : OrderSide} (different : other ≠ side) {slack paid level : Rat} {mid : Option Decimal} :
    Profits slack paid (counterPrice other level (midVal mid)) side ↔
      Profits slack paid level side ∧ ∀ m ∈ mid, 0 < (toDouble m : Rat) → Profits slack paid (toDouble m) side := by
  rcases opposite_sides different with ⟨rfl,rfl⟩ | ⟨rfl,rfl⟩
  · exact le_counterPrice
  · exact counterPrice_le

theorem near_bounded (near : Near slack x y) : Bounded (y-slack) (y+slack) x side := by
  obtain ⟨low,high⟩ := near
  cases side with
  | buy => simp only [Bounded]; linarith
  | sell => simp only [Bounded]; linarith

theorem Profits.rounded {side other : OrderSide} (different : other ≠ side) (near : Bounded (x-slack') (x+slack') y other)
    (profits : Profits slack paid x side) : Profits (slack+slack') paid y side := by
  rcases opposite_sides different with ⟨rfl,rfl⟩ | ⟨rfl,rfl⟩
  · simp only [Profits,Bounded] at *; linarith
  · simp only [Profits,Bounded] at *; linarith

theorem Profits.widen (wider : slack ≤ slack') (profits : Profits slack paid asked side) : Profits slack' paid asked side := by
  cases side with
  | buy => simp only [Profits] at *; linarith
  | sell => simp only [Profits] at *; linarith

theorem answered_price (found : slotOf fill.orderId before.levels = some k) (next : neighbour k = some k') :
    Priced before (.onFill fill answers) k'.1 (counterPrice k'.1 (toDouble (before.levels k'.2).price) (midVal answers.mid)) :=
  .counter (by rw [counterSlot,found]; exact next)

theorem answers_neighbour (found : slotOf fill.orderId before.levels = some k)
    (priced : Priced before (.onFill fill answers) side x) : ∃ i, neighbour k = some (side,i) ∧
      x = counterPrice side (toDouble (before.levels i).price) (midVal answers.mid) := by
  cases priced with
  | counter next =>
    rw [counterSlot,found] at next
    exact ⟨_,next,rfl⟩

theorem step_profits {after : Strategy Rat (cfg.gridLevels+1).toNat} {e : Event (cfg.gridLevels+1).toNat}
    (ordered : cfg.gridLow < cfg.gridHigh) (levels : 1 ≤ cfg.gridLevels) (fits : cfg.gridHigh+1/20 < 2^31)
    (front : Runs Step (initial cfg) earlier before) (step : Step before e after)
    (covered : FillCovered slack cfg before e.callback) (room : slack+(1/20+1/2^31) ≤ slack')
    (found : .filled fill (some k) ∈ e.moves) (placed : .submit i order answer ∈ e.moves) :
    Profits slack' (toDouble fill.fillPrice) (toDouble order.price) k.1 := by
  obtain ⟨answers,fills,slot⟩ := step_filled step found
  obtain ⟨x,priced,asked⟩ := (step_priced step).mp (mem_requests.mpr ⟨rfl,i,answer,placed⟩)
  have rounded := priced_quote ordered levels fits front priced
  rw [fills] at covered priced
  obtain ⟨j,next,shape⟩ := answers_neighbour slot priced
  have different : order.side ≠ k.1 := neighbour_side next
  obtain ⟨level,mids⟩ := covered k (order.side,j) slot next
  have profits : Profits slack (toDouble fill.fillPrice) x k.1 := by
    rw [shape,front_price front,profits_counterPrice different]
    exact ⟨level,mids⟩
  have kept : Profits (slack+(1/20+1/2^31)) (toDouble fill.fillPrice) (quote x) k.1 := profits.rounded different rounded
  rw [asked,orderFor_price]
  exact kept.widen room

theorem counterPrice_fits (ordered : cfg.gridLow < cfg.gridHigh) (levels : 1 ≤ cfg.gridLevels) (fits : cfg.gridHigh+1/20 < 2^31)
    {mid : Option Decimal} (below : ∀ m ∈ mid, (toDouble m : Rat)+1/20 < 2^31) (side : OrderSide)
    (i : Fin (cfg.gridLevels+1).toNat) : counterPrice side (levelPrice cfg i) (midVal mid)+1/20 < 2^31 := by
  rcases counterPrice_either side (levelPrice cfg i) mid with same | ⟨m,known,same⟩
  · rw [same]
    exact levelPrice_fits ordered levels fits i
  · rw [same]
    exact below m known

theorem step_covered {after : Strategy Rat (cfg.gridLevels+1).toNat} {e : Event (cfg.gridLevels+1).toNat}
    (ordered : cfg.gridLow < cfg.gridHigh) (levels : 1 ≤ cfg.gridLevels) (fits : cfg.gridHigh+1/20 < 2^31)
    (front : Runs Step (initial cfg) earlier before) (step : Step before e after)
    (below : ∀ mid ∈ e.mid, (toDouble mid : Rat)+1/20 < 2^31) (room : slack+(1/20+1/2^31) ≤ slack')
    (profits : ∀ fill k, .filled fill (some k) ∈ e.moves → ∀ i order answer, .submit i order answer ∈ e.moves →
      Profits slack (toDouble fill.fillPrice) (toDouble order.price) k.1) :
    FillCovered slack' cfg before e.callback := by
  cases fills : e.callback with
  | onLoad | onUnload | onTick | onTimer => trivial
  | onFill fill answers =>
    intro k k' slot next
    have different := neighbour_side next
    have found := step_delivers step fills
    rw [slot] at found
    have priced : Priced before (.onFill fill answers) k'.1 _ := answered_price slot next
    rw [front_price front,← fills] at priced
    obtain ⟨i,answer,placed⟩ := (mem_requests.mp ((step_priced step).mpr ⟨_,priced,rfl⟩)).2
    have profit := profits fill k found i _ answer placed
    rw [orderFor_price] at profit
    have low : -2^31 ≤ counterPrice k'.1 (levelPrice cfg k'.2) (midVal answers.mid) := counterPrice_low k'.1 _ answers.mid
    have high : counterPrice k'.1 (levelPrice cfg k'.2) (midVal answers.mid)+1/20 < 2^31 :=
      counterPrice_fits ordered levels fits (by simpa [Event.mid,fills] using below) k'.1 k'.2
    have kept := profit.rounded different (near_bounded (quote_near low high))
    exact (profits_counterPrice different).mp (kept.widen room)

end Steps

theorem profit_covered {cfg : Config Rat} {es : List (Event (cfg.gridLevels+1).toNat)} {g : Strategy Rat (cfg.gridLevels+1).toNat}
    (ordered : cfg.gridLow < cfg.gridHigh) (levels : 1 ≤ cfg.gridLevels) (fits : cfg.gridHigh+1/20 < 2^31)
    (path : Runs Step (initial cfg) es g) :
    (FillsCovered (1/25) cfg es → TakesProfit (1/10) es) ∧
      ((∀ e ∈ es, ∀ mid ∈ e.mid, (toDouble mid : Rat)+1/20 < 2^31) → TakesProfit (1/10) es → FillsCovered (4/25) cfg es) := by
  constructor
  · intro covered earlier e later shape fill k found i order answer placed
    subst shape
    obtain ⟨before,after,front,step,_⟩ := path.split_at
    exact step_profits ordered levels fits front step (covered earlier e later rfl before front) (by norm_num) found placed
  · intro below profits earlier e later shape before front
    subst shape
    obtain ⟨after,step⟩ := path.step_at step_functional front
    exact step_covered ordered levels fits front step (below e (by simp)) (by norm_num) (profits earlier e later rfl)

instance (slack paid asked : Rat) : (side : OrderSide) → Decidable (Profits slack paid asked side)
  | .buy => inferInstanceAs (Decidable (paid-slack ≤ asked))
  | .sell => inferInstanceAs (Decidable (asked ≤ paid+slack))

instance (cfg : Config Rat) (slack : Rat) (g : Strategy Rat (cfg.gridLevels+1).toNat) :
    (callback : Callback) → Decidable (FillCovered slack cfg g callback)
  | .onFill fill answers => decidable_of_iff (∀ k ∈ slotOf fill.orderId g.levels, ∀ k' ∈ neighbour k,
      Profits slack (toDouble fill.fillPrice) (levelPrice cfg k'.2) k.1 ∧
        ∀ mid ∈ answers.mid, 0 < (toDouble mid : Rat) → Profits slack (toDouble fill.fillPrice) (toDouble mid) k.1)
      ⟨fun covered k k' found next => covered k found k' next,fun covered k found k' next => covered k k' found next⟩
  | .onLoad | .onUnload | .onTick _ | .onTimer _ => inferInstanceAs (Decidable True)

theorem profit_covered_roomAbove :
    ∃ follows : (play follow (initial pair) roomAbove).isSome,
      let run := (play follow (initial pair) roomAbove).get follows
      TakesProfit (1/10) run.1 ∧ FillsCovered (4/25) pair run.1 := by
  have covered : FillsCovered (1/25) pair ((play follow (initial pair) roomAbove).get (by decide +kernel)).1 :=
    Meets.played (show Meets (FillCovered (1/25) pair) (initial pair) roomAbove by decide +kernel) (by decide +kernel)
  obtain ⟨takes,covers⟩ := profit_covered (show pair.gridLow < pair.gridHigh by decide +kernel) (by decide) (by decide +kernel)
    (play_get follow_sound (show (play follow (initial pair) roomAbove).isSome by decide +kernel))
  exact ⟨by decide +kernel,takes covered,covers (by decide +kernel) (takes covered)⟩

-- The buy is filled at its limit of 100.5 with mid still at 100, and the sell
-- that answers it goes out at 100.
def boughtAtLimit : Fill := {orderId := 1, fillPrice := ⟨201*2^31,by decide,by decide⟩, fillQuantity := toDecimal pair.quantity}

def soldLower : List Callback :=
  [.onLoad,.onTick {mid := hundred, ids := [1]},.onFill boughtAtLimit {mid := hundred, ids := [2]}]

theorem soldLower_loses :
    ∃ follows : (play follow (initial pair) soldLower).isSome,
      let run := (play follow (initial pair) soldLower).get follows
      Runs Step (initial pair) run.1 run.2 ∧ pair.gridLow < pair.gridHigh ∧ (accepted run.1).Nodup ∧
        .submit ⟨0,by decide⟩ (tickOrder (initial pair) 100 .buy 0) boughtAtLimit.orderId ∈ history run.1 ∧
        (toDouble boughtAtLimit.fillPrice : Rat) ≤ toDouble (tickOrder (initial pair) 100 .buy 0).price ∧
        ¬ TakesProfit (1/10) run.1 := by
  refine ⟨by decide +kernel,play_get follow_sound _,by decide +kernel,by decide +kernel,by decide +kernel,by decide +kernel,?_⟩
  intro profits
  have answered := profits.at ⟨2,by decide +kernel⟩ boughtAtLimit (.buy,⟨0,by decide⟩) (by decide +kernel) ⟨1,by decide⟩
    (orderFor (initial pair) .sell (toDecimal (100 : Rat))) 2 (by decide +kernel)
  exact absurd answered (by unfold Profits; decide +kernel)

end Chronos.GridStrategy
