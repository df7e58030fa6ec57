import Chronos.AppConfig
import Chronos.ExactDecimal

namespace Chronos
open Yaml (Node Scalars Thrown bind_ok)
open RiskEngine (RiskParameters HotParams buildHot)

inductive Amount where
  | maxOrderValue
  | maxPositionValue
  | maxTotalPositionValue
  | minAvailableCapital
  deriving DecidableEq

def Amount.key : Amount → String
  | .maxOrderValue => "max_order_value"
  | .maxPositionValue => "max_position_value"
  | .maxTotalPositionValue => "max_total_position_value"
  | .minAvailableCapital => "min_available_capital"

def Amount.usual : Amount → Rat
  | .maxOrderValue => 100000
  | .maxPositionValue => 500000
  | .maxTotalPositionValue => 1000000
  | .minAvailableCapital => 10000

def Amount.ofParams (rp : RiskParameters F) : Amount → F
  | .maxOrderValue => rp .maxOrderValue
  | .maxPositionValue => rp .maxPositionValue
  | .maxTotalPositionValue => rp .maxTotalPositionValue
  | .minAvailableCapital => rp .minAvailableCapital

def Amount.ofHot (hot : HotParams) : Amount → Decimal
  | .maxOrderValue => hot .maxOrderValue
  | .maxPositionValue => hot .maxPositionValue
  | .maxTotalPositionValue => hot .maxTotalPositionValue
  | .minAvailableCapital => hot .minAvailableCapital

def riskEntry (root : Node) (key : String) : Node :=
  match root.subscript "risk" with
  | .ok r => (r.subscript key).toOption.getD .undefined
  | .error _ => .undefined

def configuredAmount {F : Type} [Double F] (y : Scalars F) (root : Node) (a : Amount) : F :=
  Yaml.asDouble y (riskEntry root a.key) (Double.ofRat a.usual)

def configuredRate (y : Scalars F) (root : Node) : Int32 :=
  Yaml.asInt y (riskEntry root "max_orders_per_second") 100

section Configured
variable {F : Type} [Double F] {y : Scalars F} {root : Node} {cfg cfg' : AppConfig F}

theorem riskEntry_eq {r node : Node} (risk : root.subscript "risk" = .ok r) (found : r.subscript key = .ok node) :
    riskEntry root key = node := by
  simp [riskEntry,risk,found,Except.toOption]

theorem riskEntry_undefined {r : Node} (risk : root.subscript "risk" = .ok r) (absent : r.isDefined = false) :
    riskEntry root key = .undefined := by
  cases r with
  | undefined =>
    simp only [riskEntry,risk]
    rfl
  | null | scalar | sequence | map => cases absent

theorem loadRisk_configured (loaded : loadRisk y root cfg = .ok cfg') (fresh : cfg.riskParams = defaultRisk) :
    (∀ a, Amount.ofParams cfg'.riskParams a = configuredAmount y root a) ∧
      cfg'.riskParams .maxOrdersPerSecond = (configuredRate y root).toUInt32 := by
  unfold loadRisk at loaded
  obtain ⟨r,risk,loaded⟩ := bind_ok.mp loaded
  split at loaded
  · simp only [bind_ok] at loaded
    obtain ⟨order,foundOrder,position,foundPosition,rate,foundRate,total,foundTotal,capital,foundCapital,_,_,loaded⟩ := loaded
    cases loaded
    constructor
    · intro a
      cases a with
      | maxOrderValue => simp only [Amount.ofParams,configuredAmount,Amount.key,riskEntry_eq risk foundOrder]; rfl
      | maxPositionValue => simp only [Amount.ofParams,configuredAmount,Amount.key,riskEntry_eq risk foundPosition]; rfl
      | maxTotalPositionValue => simp only [Amount.ofParams,configuredAmount,Amount.key,riskEntry_eq risk foundTotal]; rfl
      | minAvailableCapital => simp only [Amount.ofParams,configuredAmount,Amount.key,riskEntry_eq risk foundCapital]; rfl
    · simp only [configuredRate,riskEntry_eq risk foundRate]
  · rename_i absent
    cases loaded
    have none : ∀ key, riskEntry root key = .undefined :=
      fun _ => riskEntry_undefined risk (by simpa using absent)
    rw [fresh]
    constructor
    · intro a
      cases a <;> simp only [configuredAmount,none] <;> rfl
    · simp only [configuredRate,none]
      rfl

theorem loadConfig_configured {getenv : String → Option String}
    (loaded : loadConfig y getenv (some root) cfg = .ok (true,cfg')) (fresh : cfg.riskParams = defaultRisk) :
    (∀ a, Amount.ofParams cfg'.riskParams a = configuredAmount y root a) ∧
      cfg'.riskParams .maxOrdersPerSecond = (configuredRate y root).toUInt32 := by
  simp only [loadConfig,bind_ok] at loaded
  obtain ⟨one,engine,two,strategies,three,exchanges,four,risk,five,log,six,zmq,last⟩ := loaded
  cases last
  have kept : three.riskParams = defaultRisk := by
    obtain ⟨_,rfl⟩ := loadStrategies_writes strategies
    obtain ⟨_,rfl⟩ := loadEngine_writes engine
    rw [(loadExchanges_keeps exchanges).2,fresh]
  obtain ⟨amounts,rate⟩ := loadRisk_configured risk kept
  obtain ⟨_,rfl⟩ := loadZmq_writes zmq
  obtain ⟨_,rfl⟩ := loadLog_writes log
  exact ⟨amounts,rate⟩

end Configured

-- The limits in force are the limits configured, and no conversion on the way
-- leaves the range of its target.
structure LimitsConfigured (y : Scalars Rat) (root : Node) (hot : HotParams) : Prop where
  amounts : ∀ a, toDouble (Amount.ofHot hot a) = truncated (configuredAmount y root a)
  rate : ((hot .maxOrdersPerSecond : UInt32).toNat : Int) = (configuredRate y root).toInt
  casts : ∀ a, Castable (configuredAmount y root a)
  assignment : 0 ≤ (configuredRate y root).toInt ∧ (configuredRate y root).toInt < 2^32

structure Representable (y : Scalars Rat) (root : Node) : Prop where
  amounts : ∀ a, -(2^31)-1/2^32 < configuredAmount y root a ∧ configuredAmount y root a < (2^31 : Rat)
  rate : 0 ≤ (configuredRate y root).toInt

theorem toUInt32_toNat (n : Int32) : (n.toUInt32.toNat : Int) = n.toInt ↔ 0 ≤ n.toInt := by
  have same : n.toInt = n.toBitVec.toInt := rfl
  have bits : n.toUInt32.toNat = n.toBitVec.toNat := rfl
  have bound := n.toBitVec.isLt
  rw [same,bits,BitVec.toInt_eq_toNat_cond]
  split <;> omega

theorem limits_configured_iff {y : Scalars Rat} {getenv : String → Option String} {flags : Flags}
    {arguments : List String} {root : Node} {start cfg : AppConfig Rat}
    (parsed : parseArgs flags arguments {} = (true,start))
    (loaded : loadConfig y getenv (some root) start = .ok (true,cfg)) :
    LimitsConfigured y root (buildHot cfg.riskParams) ↔ Representable y root := by
  have fresh : start.riskParams = defaultRisk := by
    obtain rfl := (Prod.mk.inj parsed).2
    rfl
  obtain ⟨amounts,rate⟩ := loadConfig_configured loaded fresh
  have converted : ∀ a, Amount.ofHot (buildHot cfg.riskParams) a = toDecimal (configuredAmount y root a) := by
    intro a
    rw [← amounts]
    cases a <;> rfl
  have kept : (buildHot cfg.riskParams .maxOrdersPerSecond : UInt32) = (configuredRate y root).toUInt32 := rate
  constructor
  · intro configured
    exact ⟨fun a => (castable_iff _).mp (configured.casts a),configured.assignment.1⟩
  · intro fits
    refine ⟨?_,?_,fun a => (castable_iff _).mpr (fits.amounts a),fits.rate,?_⟩
    · intro a
      rw [converted,toDouble_toDecimal _ ((castable_iff _).mpr (fits.amounts a))]
    · rw [kept,toUInt32_toNat]
      exact fits.rate
    · have := (configuredRate y root).toInt_lt
      omega

def plain : Scalars Rat where
  double text := [("100000.0",100000),("3000000000",3000000000),("-1",-1)].lookup text
  int text := [("100",100),("-1",-1)].lookup text
  uint32 text := [("100",100)].lookup text
  bool text := [("true",true),("false",false)].lookup text
  null := some "null"

def started : AppConfig Rat := (parseArgs {config := "config.yaml"} [] {}).2

def loadedFrom (root : Node) : AppConfig Rat :=
  match loadConfig plain (fun _ => none) (some root) started with
  | .ok (_,cfg) => cfg
  | .error _ => started

def riskDocument (order rate : String) : Node :=
  .map [("engine",.map [("initial_capital",.scalar "100000.0")]),
    ("risk",.map [("max_order_value",.scalar order),("max_orders_per_second",.scalar rate)])]

theorem limits_configured_sample :
    LimitsConfigured plain (riskDocument "100000.0" "100") (buildHot (loadedFrom (riskDocument "100000.0" "100")).riskParams) ↔
      Representable plain (riskDocument "100000.0" "100") :=
  limits_configured_iff (show parseArgs {config := "config.yaml"} [] {} = (true,started) from rfl)
    (show loadConfig plain (fun _ => none) (some (riskDocument "100000.0" "100")) started =
      .ok (true,loadedFrom (riskDocument "100000.0" "100")) from rfl)

theorem wrapped_limits :
    loadConfig plain (fun _ => none) (some (riskDocument "3000000000" "-1")) started =
        .ok (true,loadedFrom (riskDocument "3000000000" "-1")) ∧
      configuredAmount plain (riskDocument "3000000000" "-1") .maxOrderValue = 3000000000 ∧
      toDouble (buildHot (loadedFrom (riskDocument "3000000000" "-1")).riskParams .maxOrderValue) = (-2147483648 : Rat) ∧
      configuredRate plain (riskDocument "3000000000" "-1") = -1 ∧
      buildHot (loadedFrom (riskDocument "3000000000" "-1")).riskParams .maxOrdersPerSecond = (4294967295 : UInt32) ∧
      ¬ LimitsConfigured plain (riskDocument "3000000000" "-1")
        (buildHot (loadedFrom (riskDocument "3000000000" "-1")).riskParams) := by
  refine ⟨rfl,rfl,by decide +kernel,rfl,by decide +kernel,?_⟩
  intro configured
  exact absurd configured.assignment.1 (by decide +kernel)

end Chronos
