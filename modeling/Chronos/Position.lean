import Chronos.DecimalArithmetic
import Mathlib.Algebra.Order.Group.Unbundled.Abs
import Mathlib.Tactic.Linarith
import Mathlib.Tactic.NormNum
import Mathlib.Tactic.Ring

namespace Chronos

structure Position where
  quantity : Decimal := 0
  averagePrice : Decimal := 0
  realizedPnl : Decimal := 0
  deriving DecidableEq

def Decimal.value (d : Decimal) : Rat := d.raw/2^32

namespace Position

def getUnrealizedPnL (p : Position) (currentPrice : Decimal) : Decimal := p.quantity*(currentPrice-p.averagePrice)

def getTotalPnL (p : Position) (currentPrice : Decimal) : Decimal := p.realizedPnl+p.getUnrealizedPnL currentPrice

def unrealized (p : Position) (currentPrice : Decimal) : Rat :=
  p.quantity.value*(currentPrice.value-p.averagePrice.value)

def total (p : Position) (currentPrice : Decimal) : Rat := p.realizedPnl.value+p.unrealized currentPrice

end Position

-- Half a unit off at most, so that a gain stays a gain and a loss a loss.
structure Faithful (computed : Decimal) (exact : Rat) : Prop where
  near : |computed.value-exact| ≤ 1/2^33
  gain : 1/2^33 < exact → 0 < computed.value
  loss : exact < -(1/2^33) → computed.value < 0

def InRange (exact : Rat) : Prop := -2^31-1/2^33 < exact ∧ exact < 2^31-1/2^33

theorem faithful_iff {computed : Decimal} {exact : Rat} : Faithful computed exact ↔ |computed.value-exact| ≤ 1/2^33 := by
  constructor
  · exact Faithful.near
  · intro near
    obtain ⟨low,high⟩ := abs_le.mp near
    exact ⟨near,fun gain => by linarith,fun loss => by linarith⟩

theorem near_iff (raw units : Int) :
    |(raw : Rat)/2^32-units/2^64| ≤ 1/2^33 ↔ -2^31 ≤ raw*2^32-units ∧ raw*2^32-units ≤ 2^31 := by
  have gap : (raw : Rat)/2^32-units/2^64 = ((raw*2^32-units : Int) : Rat)/2^64 := by
    push_cast
    ring
  have half : (1 : Rat)/2^33 = ((2^31 : Int) : Rat)/2^64 := by norm_num
  rw [gap,half]
  exact units_abs (by norm_num)

theorem inRange_iff (units : Int) : InRange (units/2^64) ↔ -2^95-2^31 < units ∧ units < 2^95-2^31 := by
  have low : (-2^31-1/2^33 : Rat) = ((-2^95-2^31 : Int) : Rat)/2^64 := by norm_num
  have high : (2^31-1/2^33 : Rat) = ((2^95-2^31 : Int) : Rat)/2^64 := by norm_num
  rw [InRange,low,high]
  exact units_between (by norm_num)

theorem wrap_faithful_iff {r product : Int} (low : -2^63 ≤ r) (high : r < 2^63) :
    Faithful (wrap (r+roundProduct product)) ((r*2^32+product : Int)/2^64) ↔ InRange ((r*2^32+product : Int)/2^64) := by
  rw [faithful_iff,inRange_iff,← wrap_near_iff low high]
  exact near_iff _ _

namespace Position
variable {p : Position} {currentPrice : Decimal}

-- The difference of two prices that are not negative does not wrap.
theorem unrealized_raw (average : 0 ≤ p.averagePrice.raw) (current : 0 ≤ currentPrice.raw) :
    p.getUnrealizedPnL currentPrice = wrap (roundProduct (p.quantity.raw*(currentPrice.raw-p.averagePrice.raw))) := by
  have least := p.averagePrice.high
  have most := currentPrice.high
  have difference : (currentPrice-p.averagePrice).raw = currentPrice.raw-p.averagePrice.raw := wrap_fits (by omega) (by omega)
  rw [← difference]
  rfl

theorem total_raw (average : 0 ≤ p.averagePrice.raw) (current : 0 ≤ currentPrice.raw) :
    p.getTotalPnL currentPrice =
      wrap (p.realizedPnl.raw+roundProduct (p.quantity.raw*(currentPrice.raw-p.averagePrice.raw))) := by
  rw [← wrap_add,← unrealized_raw average current]
  rfl

theorem unrealized_units : p.unrealized currentPrice =
    ((0*2^32+p.quantity.raw*(currentPrice.raw-p.averagePrice.raw) : Int) : Rat)/2^64 := by
  unfold unrealized Decimal.value
  push_cast
  ring

theorem total_units : p.total currentPrice =
    ((p.realizedPnl.raw*2^32+p.quantity.raw*(currentPrice.raw-p.averagePrice.raw) : Int) : Rat)/2^64 := by
  unfold total unrealized Decimal.value
  push_cast
  ring

theorem pnl_faithful_iff (average : 0 ≤ p.averagePrice.raw) (current : 0 ≤ currentPrice.raw) :
    (Faithful (p.getUnrealizedPnL currentPrice) (p.unrealized currentPrice) ↔ InRange (p.unrealized currentPrice)) ∧
      (Faithful (p.getTotalPnL currentPrice) (p.total currentPrice) ↔ InRange (p.total currentPrice)) := by
  constructor
  · rw [unrealized_raw average current,unrealized_units,← wrap_faithful_iff (by decide) (by decide),Int.zero_add]
  · rw [total_raw average current,total_units]
    exact wrap_faithful_iff p.realizedPnl.low p.realizedPnl.high

end Position

def units (n : Int) : Decimal := wrap (n*2^32)

def longPosition : Position := {quantity := units 1000000000, averagePrice := units 1}

theorem pnl_faithful_sample :
    (Faithful (longPosition.getUnrealizedPnL (units 2)) (longPosition.unrealized (units 2)) ↔
        InRange (longPosition.unrealized (units 2))) ∧
      (Faithful (longPosition.getTotalPnL (units 2)) (longPosition.total (units 2)) ↔
        InRange (longPosition.total (units 2))) :=
  Position.pnl_faithful_iff (by decide) (by decide)

theorem profit_shown_as_loss :
    0 ≤ longPosition.averagePrice.raw ∧ 0 ≤ (units 4).raw ∧ longPosition.unrealized (units 4) = 3000000000 ∧
      (longPosition.getUnrealizedPnL (units 4)).value = -1294967296 ∧
      (longPosition.getTotalPnL (units 4)).value = -1294967296 ∧
      ¬ Faithful (longPosition.getUnrealizedPnL (units 4)) (longPosition.unrealized (units 4)) := by
  refine ⟨by decide +kernel,by decide +kernel,by decide +kernel,by decide +kernel,by decide +kernel,?_⟩
  intro faithful
  exact absurd faithful.near (by decide +kernel)

end Chronos
