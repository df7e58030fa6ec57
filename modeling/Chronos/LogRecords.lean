import Chronos.ByteCodec
import Chronos.LogBuffer
import Chronos.Types

namespace Chronos.LogRecord
open Codec (number enumeration)

inductive TickSide where
  | bid
  | ask
  | trade
  deriving DecidableEq

structure Tick where
  exchangeTimestampUs : UInt64
  receiveTimestampUs : UInt64
  exchangeId : UInt32
  symbolId : UInt32
  price : Decimal
  quantity : Decimal
  side : TickSide
  flags : UInt8
  reserved : Vector UInt8 22
  deriving DecidableEq

structure OrderRequest where
  orderId : UInt64
  timestampUs : UInt64
  price : Decimal
  quantity : Decimal
  stopPrice : Decimal
  clientOrderId : UInt64
  symbolId : UInt32
  exchangeId : UInt32
  strategyId : UInt32
  side : OrderSide
  type : OrderType
  tif : TimeInForce
  strategyFlags : UInt8
  reserved : Vector UInt8 64
  deriving DecidableEq

structure Fill where
  executionId : UInt64
  fillId : UInt64
  orderId : UInt64
  exchangeTimestampUs : UInt64
  receiveTimestampUs : UInt64
  fillPrice : Decimal
  fillQuantity : Decimal
  symbolId : UInt32
  exchangeId : UInt32
  strategyId : UInt32
  side : OrderSide
  isMaker : UInt8
  reserved : Vector UInt8 58
  deriving DecidableEq

section Members

def uint64 : Codec UInt64 := number 8 UInt64.toNat UInt64.ofNat UInt64.toNat_lt (fun _ => UInt64.ofNat_toNat)
  (fun _ => UInt64.toNat_ofNat_of_lt')

def uint32 : Codec UInt32 := number 4 UInt32.toNat UInt32.ofNat UInt32.toNat_lt (fun _ => UInt32.ofNat_toNat)
  (fun _ => UInt32.toNat_ofNat_of_lt')

def uint8 : Codec UInt8 := number 1 UInt8.toNat UInt8.ofNat UInt8.toNat_lt (fun _ => UInt8.ofNat_toNat)
  (fun _ => UInt8.toNat_ofNat_of_lt')

def rawCode (d : Decimal) : Nat := (d.raw%2^64).toNat

def fromRaw (n : Nat) : Decimal :=
  ⟨if n%2^64 < 2^63 then ((n%2^64 : Nat) : Int) else ((n%2^64 : Nat) : Int)-2^64,by split <;> omega,by split <;> omega⟩

theorem rawCode_lt (d : Decimal) : rawCode d < 256^8 := by
  unfold rawCode
  omega

theorem fromRaw_rawCode (d : Decimal) : fromRaw (rawCode d) = d := by
  have low := d.low
  have high := d.high
  have code : (rawCode d : Int) = d.raw%2^64 := Int.toNat_of_nonneg (Int.emod_nonneg _ (by decide))
  refine Decimal.ext ?_
  unfold fromRaw
  split <;> dsimp only <;> omega

theorem rawCode_fromRaw (n : Nat) (fits : n < 256^8) : rawCode (fromRaw n) = n := by
  simp only [fromRaw,rawCode]
  split <;> omega

def decimal : Codec Decimal := number 8 rawCode fromRaw rawCode_lt fromRaw_rawCode rawCode_fromRaw

def tickSideCode : TickSide → Nat
  | .bid => 0
  | .ask => 1
  | .trade => 2

def orderSideCode : OrderSide → Nat
  | .buy => 0
  | .sell => 1

def orderTypeCode : OrderType → Nat
  | .limit => 0
  | .market => 1
  | .stopLoss => 2
  | .stopLimit => 3

def timeInForceCode : TimeInForce → Nat
  | .gtc => 0
  | .ioc => 1
  | .fok => 2
  | .day => 3

def tickSide : Codec TickSide := enumeration [.bid,.ask,.trade] tickSideCode (by rintro ⟨⟩ <;> decide)
  (by rintro (_ | _ | _ | n) ⟨⟩ <;> simp [tickSideCode])

def orderSide : Codec OrderSide := enumeration [.buy,.sell] orderSideCode (by rintro ⟨⟩ <;> decide)
  (by rintro (_ | _ | n) ⟨⟩ <;> simp [orderSideCode])

def orderType : Codec OrderType := enumeration [.limit,.market,.stopLoss,.stopLimit] orderTypeCode (by rintro ⟨⟩ <;> decide)
  (by rintro (_ | _ | _ | _ | n) ⟨⟩ <;> simp [orderTypeCode])

def timeInForce : Codec TimeInForce := enumeration [.gtc,.ioc,.fok,.day] timeInForceCode (by rintro ⟨⟩ <;> decide)
  (by rintro (_ | _ | _ | _ | n) ⟨⟩ <;> simp [timeInForceCode])

end Members

def Tick.codec : Codec Tick :=
  (uint64.pair (uint64.pair (uint32.pair (uint32.pair (decimal.pair (decimal.pair (tickSide.pair (uint8.pair (.bytes 22))))))))).pack
    (fun (exchangeTs,receiveTs,exchangeId,symbolId,price,quantity,side,flags,reserved) =>
      ⟨exchangeTs,receiveTs,exchangeId,symbolId,price,quantity,side,flags,reserved⟩)
    (fun t => (t.exchangeTimestampUs,t.receiveTimestampUs,t.exchangeId,t.symbolId,t.price,t.quantity,t.side,t.flags,t.reserved))
    (fun _ => rfl) (fun _ => rfl)

def Tick.members : List (Member Tick) :=
  [.field 0 8 uint64 exchangeTimestampUs,.field 8 8 uint64 receiveTimestampUs,.field 16 4 uint32 exchangeId,
   .field 20 4 uint32 symbolId,.field 24 8 decimal price,.field 32 8 decimal quantity,.field 40 1 tickSide side,
   .field 41 1 uint8 flags,.field 42 1 (.bytes 22) reserved]

def OrderRequest.codec : Codec OrderRequest :=
  (uint64.pair (uint64.pair (decimal.pair (decimal.pair (decimal.pair (uint64.pair (uint32.pair (uint32.pair (uint32.pair
    (orderSide.pair (orderType.pair (timeInForce.pair (uint8.pair (.bytes 64)))))))))))))).pack
    (fun (orderId,timestamp,price,quantity,stopPrice,clientOrderId,symbolId,exchangeId,strategyId,side,type,tif,flags,reserved) =>
      ⟨orderId,timestamp,price,quantity,stopPrice,clientOrderId,symbolId,exchangeId,strategyId,side,type,tif,flags,reserved⟩)
    (fun o => (o.orderId,o.timestampUs,o.price,o.quantity,o.stopPrice,o.clientOrderId,o.symbolId,o.exchangeId,o.strategyId,
      o.side,o.type,o.tif,o.strategyFlags,o.reserved))
    (fun _ => rfl) (fun _ => rfl)

def OrderRequest.members : List (Member OrderRequest) :=
  [.field 0 8 uint64 orderId,.field 8 8 uint64 timestampUs,.field 16 8 decimal price,.field 24 8 decimal quantity,
   .field 32 8 decimal stopPrice,.field 40 8 uint64 clientOrderId,.field 48 4 uint32 symbolId,.field 52 4 uint32 exchangeId,
   .field 56 4 uint32 strategyId,.field 60 1 orderSide side,.field 61 1 orderType type,.field 62 1 timeInForce tif,
   .field 63 1 uint8 strategyFlags,.field 64 1 (.bytes 64) reserved]

def Fill.codec : Codec Fill :=
  (uint64.pair (uint64.pair (uint64.pair (uint64.pair (uint64.pair (decimal.pair (decimal.pair (uint32.pair (uint32.pair (uint32.pair
    (orderSide.pair (uint8.pair (.bytes 58))))))))))))).pack
    (fun (executionId,fillId,orderId,exchangeTs,receiveTs,fillPrice,fillQuantity,symbolId,exchangeId,strategyId,side,isMaker,reserved) =>
      ⟨executionId,fillId,orderId,exchangeTs,receiveTs,fillPrice,fillQuantity,symbolId,exchangeId,strategyId,side,isMaker,reserved⟩)
    (fun f => (f.executionId,f.fillId,f.orderId,f.exchangeTimestampUs,f.receiveTimestampUs,f.fillPrice,f.fillQuantity,f.symbolId,
      f.exchangeId,f.strategyId,f.side,f.isMaker,f.reserved))
    (fun _ => rfl) (fun _ => rfl)

def Fill.members : List (Member Fill) :=
  [.field 0 8 uint64 executionId,.field 8 8 uint64 fillId,.field 16 8 uint64 orderId,.field 24 8 uint64 exchangeTimestampUs,
   .field 32 8 uint64 receiveTimestampUs,.field 40 8 decimal fillPrice,.field 48 8 decimal fillQuantity,
   .field 56 4 uint32 symbolId,.field 60 4 uint32 exchangeId,.field 64 4 uint32 strategyId,.field 68 1 orderSide side,
   .field 69 1 uint8 isMaker,.field 70 1 (.bytes 58) reserved]

-- What the comments and assertions beside a record promise of its bytes, and a
-- reader of the log relies on.
structure LaidOut {R : Type} (c : Codec R) (members : List (Member R)) (size align : Nat) : Prop where
  placed : Member.place 0 members = members.map Member.offset++[size]
  aligned : Member.alignUp size align = size
  members : ∀ r, ∀ m ∈ members, ((c.encode r).drop m.offset).take m.width = m.bytes r
  image : ∀ bytes r, c.decode bytes = some r ∧ bytes.length = size ↔ c.encode r = bytes

theorem laidOut {R : Type} {c : Codec R} {members : List (Member R)} {size align : Nat}
    (placed : Member.place 0 members = members.map Member.offset++[size]) (aligned : Member.alignUp size align = size)
    (tiles : Member.Tiles 0 members size) (whole : ∀ r, c.encode r = members.flatMap fun m => m.bytes r) (width : c.width = size) :
    LaidOut c members size align := by
  refine ⟨placed,aligned,fun r m member => ?_,fun bytes r => ?_⟩
  · rw [whole]
    exact Member.tiles_slice tiles member r
  · constructor
    · rintro ⟨found,long⟩
      exact (c.exact _ _ (long.trans width.symm)).mp found
    · rintro rfl
      exact ⟨c.decode_encode r,(c.length r).trans width⟩

theorem records_laidOut : LaidOut Tick.codec Tick.members 64 64 ∧ LaidOut OrderRequest.codec OrderRequest.members 128 64 ∧
    LaidOut Fill.codec Fill.members 128 64 := by
  refine ⟨laidOut (by decide) (by decide) (by decide) (fun r => ?_) (by decide),
    laidOut (by decide) (by decide) (by decide) (fun r => ?_) (by decide),
    laidOut (by decide) (by decide) (by decide) (fun r => ?_) (by decide)⟩
  · simp only [Tick.members,List.flatMap_cons,List.flatMap_nil,List.append_nil]
    rfl
  · simp only [OrderRequest.members,List.flatMap_cons,List.flatMap_nil,List.append_nil]
    rfl
  · simp only [Fill.members,List.flatMap_cons,List.flatMap_nil,List.append_nil]
    rfl

end Chronos.LogRecord
