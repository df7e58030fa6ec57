import Chronos.SlotTable
import Chronos.Types
import Mathlib.Data.List.FinRange

namespace Chronos.GridStrategy

abbrev OrderId := Nat

structure Config (F : Type) [Double F] where
  gridLow : F := Double.ofRat 90
  gridHigh : F := Double.ofRat 110
  gridLevels : Int := 10
  quantity : F := Double.ofRat (1/100)
  symbolId : Nat := 1

structure GridLevel where
  price : Decimal
  buyOrderId : OrderId
  sellOrderId : OrderId
  deriving DecidableEq

def GridLevel.slot (l : GridLevel) : OrderSide → OrderId
  | .buy => l.buyOrderId
  | .sell => l.sellOrderId

def GridLevel.setSlot (l : GridLevel) (oid : OrderId) : OrderSide → GridLevel
  | .buy => {l with buyOrderId := oid}
  | .sell => {l with sellOrderId := oid}

-- levels_ never changes its size after the constructor.
structure Strategy (F : Type) [Double F] (n : Nat) where
  cfg : Config F
  levels : Fin n → GridLevel
  initialized : Bool
  ticksProcessed : UInt64
  fillsProcessed : UInt64

-- What leaves the strategy, with the answer it got, and the fills that reach it,
-- with the slot that held the order.
inductive Move (n : Nat) where
  | submit (i : Fin n) (order : OrderRequest) (answer : OrderId)
  | cancel (side : OrderSide) (i : Fin n) (oid : OrderId) (queued : Bool)
  | filled (fill : Fill) (slot : Option (OrderSide × Fin n))
  deriving DecidableEq

-- What a StrategyContext will answer during one callback: getMidPrice(symbol_id),
-- the ids of the coming submitOrder calls (0 once they run out), and cancelOrder.
structure Answers where
  mid : Option Decimal
  ids : List OrderId := []
  confirms : List Bool := []

structure Context (n : Nat) extends Answers where
  moves : List (Move n) := []

section Callbacks
variable {F : Type} [Double F] {n : Nat}

-- The argument of reserve: grid_levels + 1 as an int, its sign extended to the
-- width of a size_t.
def reserved (gridLevels : Int) : Nat := ((BitVec.ofInt 32 (gridLevels+1)).signExtend 64).toNat

-- max_size() of a vector of GridLevels, which take 24 bytes each.
def maxSize : Nat := (2^63-1)/24

-- With grid_levels = 0 the spacing is infinite or a NaN, 0 times it a NaN, and the
-- cast of that is as little in range as that of a number too large.
def levelAt (cfg : Config F) (i : Nat) : Decimal :=
  let spacing := (cfg.gridHigh-cfg.gridLow)/Double.ofInt cfg.gridLevels
  let price := cfg.gridLow+spacing*Double.ofInt i
  if cfg.gridLevels = 0 then Double.outOfRange price else toDecimal price

def initial (cfg : Config F) : Strategy F (cfg.gridLevels+1).toNat := ⟨cfg,fun i => ⟨levelAt cfg i,0,0⟩,false,0,0⟩

structure LengthError where
  deriving DecidableEq

def construct (cfg : Config F) : Except LengthError (Strategy F (cfg.gridLevels+1).toNat) :=
  if maxSize < reserved cfg.gridLevels then .error ⟨⟩ else .ok (initial cfg)

theorem construct_ok {cfg : Config F} {g : Strategy F (cfg.gridLevels+1).toNat} :
    construct cfg = .ok g ↔ reserved cfg.gridLevels ≤ maxSize ∧ g = initial cfg := by
  unfold construct
  split
  · simp [Nat.not_le.mpr ‹_›]
  · simp [Nat.not_lt.mp ‹_›,eq_comm]

def Strategy.setSlot (g : Strategy F n) (side : OrderSide) (i : Fin n) (oid : OrderId) : Strategy F n :=
  {g with levels := Function.update g.levels i ((g.levels i).setSlot oid side)}

def Context.submitOrder (ctx : Context n) (i : Fin n) (order : OrderRequest) : OrderId × Context n :=
  (ctx.ids.headD 0,{ctx with ids := ctx.ids.tail, moves := ctx.moves++[.submit i order (ctx.ids.headD 0)]})

def Context.cancelOrder (ctx : Context n) (side : OrderSide) (i : Fin n) (oid : OrderId) : Bool × Context n :=
  (ctx.confirms.headD true,
    {ctx with confirms := ctx.confirms.tail, moves := ctx.moves++[.cancel side i oid (ctx.confirms.headD true)]})

def roundPrice (F : Type) [Double F] (price : Decimal) (decimals : Nat) : Decimal :=
  let v : F := toDouble price
  let scale : F := Double.pow (Double.ofRat 10) decimals
  toDecimal (Double.round (v*scale)/scale)

def orderFor (g : Strategy F n) (side : OrderSide) (price : Decimal) : OrderRequest :=
  {symbolId := g.cfg.symbolId, price := roundPrice F price 1, quantity := toDecimal g.cfg.quantity,
   side := side, type := .limit, tif := .gtc}

def placeAt (side : OrderSide) (g : Strategy F n) (ctx : Context n) (i : Fin n) (price : Decimal) :
    OrderId × Strategy F n × Context n :=
  let (oid,ctx) := ctx.submitOrder i (orderFor g side price)
  (oid,if oid ≠ 0 then g.setSlot side i oid else g,ctx)

def placeBuyAt (g : Strategy F n) (ctx : Context n) (i : Fin n) (price : Decimal) :
    OrderId × Strategy F n × Context n := placeAt .buy g ctx i price

def placeSellAt (g : Strategy F n) (ctx : Context n) (i : Fin n) (price : Decimal) :
    OrderId × Strategy F n × Context n := placeAt .sell g ctx i price

def onLoad (g : Strategy F n) : Strategy F n := {g with initialized := true}
def onUnload (g : Strategy F n) : Strategy F n := {g with initialized := false}

structure Ticking (F : Type) [Double F] (n : Nat) where
  strategy : Strategy F n
  ctx : Context n
  buyOffset : Int := 0
  sellOffset : Int := 0

def counted (oid : OrderId) (g : Strategy F n) : Strategy F n :=
  if oid ≠ 0 then {g with ticksProcessed := g.ticksProcessed+1} else g

def tickBuy (mid : F) (st : Ticking F n) (i : Fin n) : Ticking F n :=
  let levelPrice : F := toDouble (st.strategy.levels i).price
  if Double.less levelPrice mid ∧ (st.strategy.levels i).buyOrderId = 0 then
    let aggressive := stdMax levelPrice mid+Double.ofRat (1/2)+Double.ofInt st.buyOffset*Double.ofRat (1/10)
    let (oid,g,ctx) := placeBuyAt st.strategy st.ctx i (toDecimal aggressive)
    {st with strategy := counted oid g, ctx := ctx, buyOffset := st.buyOffset+1}
  else st

def tickSell (mid : F) (st : Ticking F n) (i : Fin n) : Ticking F n :=
  let levelPrice : F := toDouble (st.strategy.levels i).price
  if Double.less mid levelPrice ∧ (st.strategy.levels i).sellOrderId = 0 then
    let aggressive := stdMin levelPrice mid-Double.ofRat (1/2)-Double.ofInt st.sellOffset*Double.ofRat (1/10)
    let (oid,g,ctx) := placeSellAt st.strategy st.ctx i (toDecimal aggressive)
    {st with strategy := counted oid g, ctx := ctx, sellOffset := st.sellOffset+1}
  else st

def onTick (g : Strategy F n) (ctx : Context n) : Strategy F n × Context n :=
  if g.initialized then
    match ctx.mid with
    | none => (g,ctx)
    | some mid =>
      let last := (List.finRange n).foldl
        (fun st i => tickSell (toDouble mid) (tickBuy (toDouble mid) st i) i) ⟨g,ctx,0,0⟩
      (last.strategy,last.ctx)
  else (g,ctx)

-- The loop of onFill stops at the first level one of whose slots holds the id.
def slotOf (oid : OrderId) (levels : Fin n → GridLevel) : Option (OrderSide × Fin n) :=
  (List.finRange n).findSome? fun i =>
    if oid ≠ 0 ∧ oid = (levels i).buyOrderId then some (.buy,i)
    else if oid ≠ 0 ∧ oid = (levels i).sellOrderId then some (.sell,i)
    else none

def onFill (g : Strategy F n) (fill : Fill) (ctx : Context n) : Strategy F n × Context n :=
  let midVal : F := match ctx.mid with | some mid => toDouble mid | none => Double.ofRat 0
  let ctx := {ctx with moves := ctx.moves++[.filled fill (slotOf fill.orderId g.levels)]}
  match slotOf fill.orderId g.levels with
  | some (.buy,i) =>
    let g := {g.setSlot .buy i 0 with fillsProcessed := g.fillsProcessed+1}
    if up : i.val+1 < n then
      let price : F := toDouble (g.levels ⟨i+1,up⟩).price
      let price := if Double.less (Double.ofRat 0) midVal then stdMin price midVal else price
      (placeSellAt g ctx ⟨i+1,up⟩ (toDecimal price)).2
    else (g,ctx)
  | some (.sell,i) =>
    let g := {g.setSlot .sell i 0 with fillsProcessed := g.fillsProcessed+1}
    if 0 < i.val then
      let price : F := toDouble (g.levels ⟨i-1,by omega⟩).price
      let price := if Double.less (Double.ofRat 0) midVal then stdMax price midVal else price
      (placeBuyAt g ctx ⟨i-1,by omega⟩ (toDecimal price)).2
    else (g,ctx)
  | none => (g,ctx)

-- Cancels a stale order; what cancelOrder answers is not looked at.
def timerSlot (side : OrderSide) (stale : Bool) (w : Strategy F n × Context n) (i : Fin n) : Strategy F n × Context n :=
  if stale ∧ (w.1.levels i).slot side ≠ 0 then
    (w.1.setSlot side i 0,(w.2.cancelOrder side i ((w.1.levels i).slot side)).2)
  else w

def timerLevel (mid : F) (w : Strategy F n × Context n) (i : Fin n) : Strategy F n × Context n :=
  let price : F := toDouble (w.1.levels i).price
  timerSlot .sell (Double.less price mid) (timerSlot .buy (Double.less mid price) w i) i

def onTimer (g : Strategy F n) (ctx : Context n) : Strategy F n × Context n :=
  if g.initialized then
    match ctx.mid with
    | none => (g,ctx)
    | some mid => (List.finRange n).foldl (timerLevel (toDouble mid)) (g,ctx)
  else (g,ctx)

inductive Callback where
  | onLoad
  | onUnload
  | onTick (answers : Answers)
  | onFill (fill : Fill) (answers : Answers)
  | onTimer (answers : Answers)

def deliver (g : Strategy F n) : Callback → Strategy F n × List (Move n)
  | .onLoad => (onLoad g,[])
  | .onUnload => (onUnload g,[])
  | .onTick answers => let (g,ctx) := onTick g ⟨answers,[]⟩; (g,ctx.moves)
  | .onFill fill answers => let (g,ctx) := onFill g fill ⟨answers,[]⟩; (g,ctx.moves)
  | .onTimer answers => let (g,ctx) := onTimer g ⟨answers,[]⟩; (g,ctx.moves)

structure Event (n : Nat) where
  callback : Callback
  moves : List (Move n)

def Step (g : Strategy F n) (e : Event n) (g' : Strategy F n) : Prop := deliver g e.callback = (g',e.moves)

def follow (g : Strategy F n) (callback : Callback) : Option (Event n × Strategy F n) :=
  some (⟨callback,(deliver g callback).2⟩,(deliver g callback).1)

theorem follow_sound (g : Strategy F n) (callback : Callback) (e : Event n) (g' : Strategy F n)
    (followed : follow g callback = some (e,g')) : Step g e g' := by
  cases followed
  rfl

def history (es : List (Event n)) : List (Move n) := es.flatMap Event.moves

end Callbacks
end Chronos.GridStrategy
