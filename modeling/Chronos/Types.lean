import Mathlib.Data.Rat.Floor

namespace Chronos

inductive OrderSide where
  | buy
  | sell
  deriving DecidableEq

inductive OrderType where
  | limit
  | market
  | stopLoss
  | stopLimit
  deriving DecidableEq

inductive TimeInForce where
  | gtc
  | ioc
  | fok
  | day
  deriving DecidableEq

-- fpm::fixed<int64_t, __int128, 32>: a 64-bit raw value, standing for raw / 2^32.
@[ext] structure Decimal where
  raw : Int
  low : -2^63 ≤ raw
  high : raw < 2^63
  deriving DecidableEq

instance : Zero Decimal := ⟨0,by decide,by decide⟩

-- What the program does with a double. `truncate` is the integer a cast to
-- int64_t means; where that does not fit, the cast yields what `outOfRange` says.
class Double (F : Type) extends Add F, Sub F, Mul F, Div F where
  ofRat : Rat → F
  ofInt : Int → F
  less : F → F → Bool
  round : F → F
  pow : F → Nat → F
  truncate : F → Int
  outOfRange : F → Decimal

section Conversions
variable {F : Type} [Double F]

def scale : F := Double.ofRat (2^32)

def Castable (value : F) : Prop :=
  -2^63 ≤ Double.truncate (value*scale) ∧ Double.truncate (value*scale) < 2^63

instance (value : F) : Decidable (Castable value) := inferInstanceAs (Decidable (_ ∧ _))

def toDecimal (value : F) : Decimal :=
  if fits : Castable value then ⟨Double.truncate (value*scale),fits.1,fits.2⟩ else Double.outOfRange value

def toDouble (value : Decimal) : F := Double.ofInt value.raw/scale

-- std::min and std::max return their first argument on a tie.
def stdMin (a b : F) : F := if Double.less b a then b else a
def stdMax (a b : F) : F := if Double.less a b then b else a

theorem toDecimal_raw {value : F} (fits : Castable value) :
    (toDecimal value).raw = Double.truncate (value*scale) := by simp [toDecimal,fits]

end Conversions

-- Doubles read as the rationals they denote, with every operation exact. The
-- out-of-range cast is the one of x86-64.
instance exact : Double Rat where
  ofRat q := q
  ofInt i := i
  less a b := decide (a < b)
  round q := if 0 ≤ q then ⌊q+1/2⌋ else ⌈q-1/2⌉
  pow q n := q^n
  truncate q := if 0 ≤ q then ⌊q⌋ else ⌈q⌉
  outOfRange _ := ⟨-2^63,by decide,by decide⟩

-- The fields a strategy fills in; the rest is stamped on the way to the exchange.
structure OrderRequest where
  orderId : Nat := 0
  timestampUs : Nat := 0
  price : Decimal := 0
  quantity : Decimal := 0
  stopPrice : Decimal := 0
  clientOrderId : Nat := 0
  symbolId : Nat := 0
  exchangeId : Nat := 0
  strategyId : Nat := 0
  side : OrderSide := .buy
  type : OrderType := .limit
  tif : TimeInForce := .gtc
  strategyFlags : Nat := 0
  deriving DecidableEq

structure Fill where
  orderId : Nat := 0
  fillPrice : Decimal := 0
  fillQuantity : Decimal := 0
  symbolId : Nat := 0
  strategyId : Nat := 0
  side : OrderSide := .buy
  deriving DecidableEq

end Chronos
