import Chronos.Position

namespace Chronos

theorem roundProduct_mono {a b : Int} (order : a ≤ b) : roundProduct a ≤ roundProduct b := by
  unfold roundProduct
  split <;> split <;> omega

theorem roundProduct_neg (a : Int) : roundProduct (-a) = -roundProduct a := by
  unfold roundProduct
  split <;> split <;> omega

theorem roundProduct_add (a b : Int) : ∃ slack : Int, -1 ≤ slack ∧ slack ≤ 1 ∧
    roundProduct (a+b) = roundProduct a+roundProduct b+slack := by
  have whole := roundProduct_near (a+b)
  have left := roundProduct_near a
  have right := roundProduct_near b
  exact ⟨roundProduct (a+b)-roundProduct a-roundProduct b,by omega,by omega,by omega⟩

theorem wrap_neg (n : Int) : wrap (-(wrap n).raw) = wrap (-n) := by
  ext
  exact Int.bmod_neg_bmod

theorem wrap_plus (a b : Int) : wrap a+wrap b = wrap (a+b) := by
  ext
  exact (Int.add_bmod a b (2^64)).symm

theorem wrap_raw (d : Decimal) : wrap d.raw = d := by
  ext
  exact wrap_fits d.low d.high

namespace Position

def isFlat (p : Position) : Bool := p.quantity.raw = 0
def isLong (p : Position) : Bool := 0 < p.quantity.raw
def isShort (p : Position) : Bool := p.quantity.raw < 0

variable {p : Position}

-- The difference a P&L is computed from; it may have wrapped.
theorem unrealized_wrap (p : Position) (price : Decimal) :
    p.getUnrealizedPnL price = wrap (roundProduct (p.quantity.raw*(price-p.averagePrice).raw)) := rfl

theorem unrealized_fits {price : Decimal} (average : 0 ≤ p.averagePrice.raw) (current : 0 ≤ price.raw)
    (inside : InRange (p.unrealized price)) :
    (p.getUnrealizedPnL price).raw = roundProduct (p.quantity.raw*(price.raw-p.averagePrice.raw)) := by
  rw [unrealized_units,Int.zero_mul,Int.zero_add,inRange_iff] at inside
  have near := roundProduct_near (p.quantity.raw*(price.raw-p.averagePrice.raw))
  rw [unrealized_raw average current]
  exact wrap_fits (by omega) (by omega)

structure PnlLaws (p : Position) : Prop where
  rises : ∀ low high, 0 ≤ low.raw → low.raw ≤ high.raw → InRange (p.unrealized low) → InRange (p.unrealized high) → p.isLong →
    (p.getUnrealizedPnL low).raw ≤ (p.getUnrealizedPnL high).raw
  falls : ∀ low high, 0 ≤ low.raw → low.raw ≤ high.raw → InRange (p.unrealized low) → InRange (p.unrealized high) → p.isShort →
    (p.getUnrealizedPnL high).raw ≤ (p.getUnrealizedPnL low).raw
  turned : ∀ price, -2^63 < p.quantity.raw → ({p with quantity := -p.quantity} : Position).getUnrealizedPnL price = -p.getUnrealizedPnL price
  split : ∀ a b price, p.quantity.raw = a.raw+b.raw → ∃ slack : Int, -1 ≤ slack ∧ slack ≤ 1 ∧ p.getUnrealizedPnL price =
    ({p with quantity := a} : Position).getUnrealizedPnL price+({p with quantity := b} : Position).getUnrealizedPnL price+wrap slack
  flat : p.isFlat → ∀ price, p.getUnrealizedPnL price = 0 ∧ p.getTotalPnL price = p.realizedPnl

theorem pnl_laws (average : 0 ≤ p.averagePrice.raw) : PnlLaws p := by
  refine ⟨?_,?_,?_,?_,?_⟩
  · intro low high least order inLow inHigh long
    have positive : 0 < p.quantity.raw := by simpa [isLong] using long
    rw [unrealized_fits average least inLow,unrealized_fits average (by omega) inHigh]
    exact roundProduct_mono (Int.mul_le_mul_of_nonneg_left (by omega) (by omega))
  · intro low high least order inLow inHigh short
    have negative : p.quantity.raw < 0 := by simpa [isShort] using short
    rw [unrealized_fits average least inLow,unrealized_fits average (by omega) inHigh]
    exact roundProduct_mono (Int.mul_le_mul_of_nonpos_left (by omega) (by omega))
  · intro price more
    rw [unrealized_wrap,unrealized_wrap]
    show wrap (roundProduct ((-p.quantity).raw*_)) = wrap (-(wrap _).raw)
    rw [neg_raw more,Int.neg_mul,roundProduct_neg,wrap_neg]
  · intro a b price sum
    obtain ⟨slack,least,most,rounded⟩ := roundProduct_add (a.raw*(price-p.averagePrice).raw) (b.raw*(price-p.averagePrice).raw)
    refine ⟨slack,least,most,?_⟩
    rw [unrealized_wrap,unrealized_wrap,unrealized_wrap,sum,Int.add_mul,rounded,wrap_plus,wrap_plus]
  · intro none price
    have nothing : p.quantity.raw = 0 := by simpa [isFlat] using none
    have zero : p.getUnrealizedPnL price = 0 := by
      rw [unrealized_wrap,nothing,Int.zero_mul]
      rfl
    refine ⟨zero,?_⟩
    rw [getTotalPnL,zero]
    show wrap (p.realizedPnl.raw+0) = _
    rw [Int.add_zero,wrap_raw]

theorem pnl_laws_long : PnlLaws longPosition := pnl_laws (by decide)

end Position

end Chronos
