import Chronos.RiskEngine
import Chronos.Yaml

namespace Chronos
open Yaml (Node Scalars Thrown bind_ok)
open RiskEngine (RiskParameters)

structure StrategyCfg (F : Type) [Double F] where
  type : String := ""
  gridLow : F := Double.ofRat 95
  gridHigh : F := Double.ofRat 105
  gridLevels : Int32 := 5
  quantity : F := Double.ofRat (1/10)
  symbolId : UInt32 := 1

structure LogCfg where
  outputDir : String := "./logs"
  deriving DecidableEq

structure ZmqCfg where
  endpoint : String := "tcp://*:5555"
  hwm : Int32 := 10000
  linger : Int32 := 1000
  deriving DecidableEq

def defaultRisk {F : Type} [Double F] : RiskParameters F
  | .maxOrderValue => Double.ofRat 100000
  | .maxPositionValue => Double.ofRat 500000
  | .maxOrdersPerSecond => (100 : UInt32)
  | .maxTotalPositionValue => Double.ofRat 1000000
  | .minAvailableCapital => Double.ofRat 10000
  | .maxDrawdownPercent => Double.ofRat 20

structure AppConfig (F : Type) [Double F] where
  configPath : String := ""
  logDir : String := ""
  date : String := ""
  liveMode : Bool := false
  forceSimulate : Bool := false
  strategies : List (StrategyCfg F) := []
  exchangeName : String := "binance"
  exchangeUrl : String := ""
  restUrl : String := ""
  userStreamUrl : String := ""
  exchangeApiKey : String := ""
  exchangeApiSecret : String := ""
  proxyHost : String := ""
  proxyPort : Int32 := 0
  exchangeSymbols : List String := []
  riskParams : RiskParameters F := defaultRisk
  initialCapital : F := Double.ofRat 100000
  logCfg : LogCfg := {}
  zmqCfg : ZmqCfg := {}

structure Flags where
  replay : String := ""
  date : String := ""
  live : Bool := false
  simulate : Bool := false
  exchange : String := "binance"
  config : String := ""
  deriving DecidableEq

section Load
variable {F : Type} [Double F]

def parseArgs (flags : Flags) (arguments : List String) (cfg : AppConfig F) : Bool × AppConfig F :=
  let configPath := if flags.config ≠ "" then flags.config else arguments.headD cfg.configPath
  let cfg := {cfg with
    logDir := flags.replay
    date := flags.date
    liveMode := flags.live
    forceSimulate := flags.simulate
    exchangeName := flags.exchange
    configPath := configPath}
  (configPath ≠ "",cfg)

variable (y : Scalars F)

def loadEngine (root : Node) (cfg : AppConfig F) : Except Thrown (AppConfig F) := do
  let eng ← root.subscript "engine"
  if eng.isDefined then
    return {cfg with initialCapital := Yaml.asDouble y (← eng.subscript "initial_capital") (Double.ofRat 100000)}
  return cfg

def loadStrategy (s : Node) : Except Thrown (Option (StrategyCfg F)) := do
  if !Yaml.asBool y (← s.subscript "enabled") true then return none
  let type := Yaml.asText y (← s.subscript "name") "GridStrategy"
  let p ← s.subscript "parameters"
  if p.isDefined then
    return some {
      type := type
      gridLow := Yaml.asDouble y (← p.subscript "grid_low") (Double.ofRat 95)
      gridHigh := Yaml.asDouble y (← p.subscript "grid_high") (Double.ofRat 105)
      gridLevels := Yaml.asInt y (← p.subscript "grid_levels") 5
      quantity := Yaml.asDouble y (← p.subscript "quantity") (Double.ofRat (1/10))
      symbolId := Yaml.asUint32 y (← (← p.subscript "symbol_ids").index y 0) 1}
  return some {type := type}

def loadStrategies (root : Node) (cfg : AppConfig F) : Except Thrown (AppConfig F) := do
  match (← root.subscript "strategies").items? with
  | some items =>
    let loaded ← items.mapM (loadStrategy y)
    return {cfg with strategies := cfg.strategies++loaded.reduceOption}
  | none => return cfg

def resolveEnv (getenv : String → Option String) (s : String) : String :=
  match s.toList with
  | '$' :: '{' :: rest =>
    if 1 < rest.length ∧ rest.getLast? = some '}' then (getenv (String.ofList rest.dropLast)).getD "" else s
  | _ => s

def loadSymbols (ex : Node) : Except Thrown (List String) := do
  match (← ex.subscript "symbols").items? with
  | some items => items.mapM (Yaml.text y)
  | none => return []

def loadExchange (getenv : String → Option String) (ex : Node) (cfg : AppConfig F) :
    Except Thrown (AppConfig F) := do
  let exchangeName := Yaml.asText y (← ex.subscript "name") "binance"
  let exchangeUrl := Yaml.asText y (← ex.subscript "websocket_url") ""
  let restUrl := Yaml.asText y (← ex.subscript "rest_url") ""
  let userStreamUrl := Yaml.asText y (← ex.subscript "user_stream_url") ""
  let proxyHost := Yaml.asText y (← ex.subscript "proxy_host") ""
  let proxyPort := Yaml.asInt y (← ex.subscript "proxy_port") 0
  let key := resolveEnv getenv (Yaml.asText y (← ex.subscript "api_key") "")
  let secret := resolveEnv getenv (Yaml.asText y (← ex.subscript "api_secret") "")
  -- the fallback variables, whatever the exchange is called
  let key := if key = "" then (getenv "BINANCE_API_KEY").getD key else key
  let secret := if secret = "" then (getenv "BINANCE_API_SECRET").getD secret else secret
  let symbols ← loadSymbols y ex
  return {cfg with
    exchangeName := exchangeName
    exchangeUrl := exchangeUrl
    restUrl := restUrl
    userStreamUrl := userStreamUrl
    proxyHost := proxyHost
    proxyPort := proxyPort
    exchangeApiKey := key
    exchangeApiSecret := secret
    exchangeSymbols := cfg.exchangeSymbols++symbols}

def loadExchanges (getenv : String → Option String) (root : Node) (cfg : AppConfig F) :
    Except Thrown (AppConfig F) := do
  match (← root.subscript "exchanges").items? with
  | some (ex::_) => loadExchange y getenv ex cfg
  | _ => return cfg

-- The rate is read as an int and assigned to a uint32_t.
def loadRisk (root : Node) (cfg : AppConfig F) : Except Thrown (AppConfig F) := do
  let r ← root.subscript "risk"
  if r.isDefined then
    let maxOrderValue := Yaml.asDouble y (← r.subscript "max_order_value") (Double.ofRat 100000)
    let maxPositionValue := Yaml.asDouble y (← r.subscript "max_position_value") (Double.ofRat 500000)
    let maxOrdersPerSecond := Yaml.asInt y (← r.subscript "max_orders_per_second") 100
    let maxTotalPositionValue := Yaml.asDouble y (← r.subscript "max_total_position_value") (Double.ofRat 1000000)
    let minAvailableCapital := Yaml.asDouble y (← r.subscript "min_available_capital") (Double.ofRat 10000)
    let maxDrawdownPercent := Yaml.asDouble y (← r.subscript "max_drawdown_percent") (Double.ofRat 20)
    return {cfg with riskParams := fun
      | .maxOrderValue => maxOrderValue
      | .maxPositionValue => maxPositionValue
      | .maxOrdersPerSecond => maxOrdersPerSecond.toUInt32
      | .maxTotalPositionValue => maxTotalPositionValue
      | .minAvailableCapital => minAvailableCapital
      | .maxDrawdownPercent => maxDrawdownPercent}
  return cfg

def loadLog (root : Node) (cfg : AppConfig F) : Except Thrown (AppConfig F) := do
  let l ← root.subscript "log"
  if l.isDefined then
    return {cfg with logCfg := {outputDir := Yaml.asText y (← l.subscript "output_dir") "./logs"}}
  return cfg

def loadZmq (root : Node) (cfg : AppConfig F) : Except Thrown (AppConfig F) := do
  let z ← root.subscript "zmq"
  if z.isDefined then
    return {cfg with zmqCfg := {
      endpoint := Yaml.asText y (← z.subscript "publish_endpoint") "tcp://*:5555"
      hwm := Yaml.asInt y (← z.subscript "high_water_mark") 10000
      linger := Yaml.asInt y (← z.subscript "linger_ms") 1000}}
  return cfg

-- `file` is what YAML::LoadFile makes of the path: none when it throws. Only
-- that call is guarded; what the sections throw leaves the function.
def loadConfig (getenv : String → Option String) (file : Option Node) (cfg : AppConfig F) :
    Except Thrown (Bool × AppConfig F) := do
  match file with
  | none => return (false,cfg)
  | some root =>
    let cfg ← loadEngine y root cfg
    let cfg ← loadStrategies y root cfg
    let cfg ← loadExchanges y getenv root cfg
    let cfg ← loadRisk y root cfg
    let cfg ← loadLog y root cfg
    let cfg ← loadZmq y root cfg
    return (true,cfg)

end Load

def entryAt (node : Node) (key : String) : Node := (node.subscript key).toOption.getD .undefined

theorem entryAt_eq {node value : Node} (found : node.subscript key = .ok value) : entryAt node key = value := by
  simp [entryAt,found,Except.toOption]

def exchangeEntries (root : Node) : List Node := (entryAt root "exchanges").items?.getD []

section Entry
variable {F : Type} [Double F] (y : Scalars F) (ex : Node)

def configuredName : String := Yaml.asText y (entryAt ex "name") "binance"

def credential (getenv : String → Option String) (key fallback : String) : String :=
  let resolved := resolveEnv getenv (Yaml.asText y (entryAt ex key) "")
  if resolved = "" then (getenv fallback).getD resolved else resolved

def fromEntry (getenv : String → Option String) (symbols : List String) (cfg : AppConfig F) : AppConfig F := {cfg with
  exchangeName := configuredName y ex
  exchangeUrl := Yaml.asText y (entryAt ex "websocket_url") ""
  restUrl := Yaml.asText y (entryAt ex "rest_url") ""
  userStreamUrl := Yaml.asText y (entryAt ex "user_stream_url") ""
  proxyHost := Yaml.asText y (entryAt ex "proxy_host") ""
  proxyPort := Yaml.asInt y (entryAt ex "proxy_port") 0
  exchangeApiKey := credential y ex getenv "api_key" "BINANCE_API_KEY"
  exchangeApiSecret := credential y ex getenv "api_secret" "BINANCE_API_SECRET"
  exchangeSymbols := cfg.exchangeSymbols++symbols}

end Entry

section Writes
variable {F : Type} [Double F] {y : Scalars F} {root : Node} {cfg cfg' : AppConfig F}

theorem loadEngine_writes (loaded : loadEngine y root cfg = .ok cfg') :
    ∃ capital, cfg' = {cfg with initialCapital := capital} := by
  unfold loadEngine at loaded
  obtain ⟨eng,_,loaded⟩ := bind_ok.mp loaded
  split at loaded
  · obtain ⟨_,_,loaded⟩ := bind_ok.mp loaded
    cases loaded
    exact ⟨_,rfl⟩
  · cases loaded
    exact ⟨_,rfl⟩

theorem loadStrategies_writes (loaded : loadStrategies y root cfg = .ok cfg') :
    ∃ strategies, cfg' = {cfg with strategies := strategies} := by
  unfold loadStrategies at loaded
  obtain ⟨node,_,loaded⟩ := bind_ok.mp loaded
  split at loaded
  · obtain ⟨_,_,loaded⟩ := bind_ok.mp loaded
    cases loaded
    exact ⟨_,rfl⟩
  · cases loaded
    exact ⟨_,rfl⟩

theorem loadRisk_writes (loaded : loadRisk y root cfg = .ok cfg') : ∃ params, cfg' = {cfg with riskParams := params} := by
  unfold loadRisk at loaded
  obtain ⟨node,_,loaded⟩ := bind_ok.mp loaded
  split at loaded
  · simp only [bind_ok] at loaded
    obtain ⟨_,_,_,_,_,_,_,_,_,_,_,_,loaded⟩ := loaded
    cases loaded
    exact ⟨_,rfl⟩
  · cases loaded
    exact ⟨_,rfl⟩

theorem loadLog_writes (loaded : loadLog y root cfg = .ok cfg') : ∃ log, cfg' = {cfg with logCfg := log} := by
  unfold loadLog at loaded
  obtain ⟨node,_,loaded⟩ := bind_ok.mp loaded
  split at loaded
  · obtain ⟨_,_,loaded⟩ := bind_ok.mp loaded
    cases loaded
    exact ⟨_,rfl⟩
  · cases loaded
    exact ⟨_,rfl⟩

theorem loadZmq_writes (loaded : loadZmq y root cfg = .ok cfg') : ∃ zmq, cfg' = {cfg with zmqCfg := zmq} := by
  unfold loadZmq at loaded
  obtain ⟨node,_,loaded⟩ := bind_ok.mp loaded
  split at loaded
  · simp only [bind_ok] at loaded
    obtain ⟨_,_,_,_,_,_,loaded⟩ := loaded
    cases loaded
    exact ⟨_,rfl⟩
  · cases loaded
    exact ⟨_,rfl⟩

theorem loadExchange_writes {getenv : String → Option String} {ex : Node} (loaded : loadExchange y getenv ex cfg = .ok cfg') :
    ∃ symbols, loadSymbols y ex = .ok symbols ∧ cfg' = fromEntry y ex getenv symbols cfg := by
  unfold loadExchange at loaded
  simp only [bind_ok] at loaded
  obtain ⟨_,name,_,url,_,rest,_,user,_,host,_,port,_,key,_,secret,symbols,listed,loaded⟩ := loaded
  cases loaded
  refine ⟨symbols,listed,?_⟩
  simp only [fromEntry,configuredName,credential,entryAt_eq name,entryAt_eq url,entryAt_eq rest,entryAt_eq user,
    entryAt_eq host,entryAt_eq port,entryAt_eq key,entryAt_eq secret]

theorem loadExchanges_first {getenv : String → Option String} (loaded : loadExchanges y getenv root cfg = .ok cfg') :
    (exchangeEntries root).head?.elim (cfg' = cfg) (fun ex => loadExchange y getenv ex cfg = .ok cfg') := by
  unfold loadExchanges at loaded
  obtain ⟨node,found,loaded⟩ := bind_ok.mp loaded
  rw [exchangeEntries,entryAt_eq found]
  split at loaded
  · rename_i sequence
    rw [sequence]
    exact loaded
  · rename_i other
    cases loaded
    cases items : node.items? with
    | none => rfl
    | some entries =>
      cases entries with
      | nil => rfl
      | cons ex rest => exact absurd items (other ex rest)

theorem loadExchanges_keeps {getenv : String → Option String} (loaded : loadExchanges y getenv root cfg = .ok cfg') :
    cfg'.strategies = cfg.strategies ∧ cfg'.riskParams = cfg.riskParams := by
  have first := loadExchanges_first loaded
  cases head : (exchangeEntries root).head? with
  | none =>
    rw [head] at first
    cases first
    exact ⟨rfl,rfl⟩
  | some ex =>
    rw [head] at first
    obtain ⟨_,_,rfl⟩ := loadExchange_writes first
    exact ⟨rfl,rfl⟩

theorem loadConfig_writes {getenv : String → Option String} {ex : Node}
    (loaded : loadConfig y getenv (some root) cfg = .ok (true,cfg')) (head : (exchangeEntries root).head? = some ex) :
    ∃ symbols capital strategies params log zmq, loadSymbols y ex = .ok symbols ∧ cfg' = {fromEntry y ex getenv symbols cfg with
      initialCapital := capital
      strategies := strategies
      riskParams := params
      logCfg := log
      zmqCfg := zmq} := by
  simp only [loadConfig,bind_ok] at loaded
  obtain ⟨one,engine,two,strategies,three,exchanges,four,risk,five,log,six,zmq,last⟩ := loaded
  cases last
  have first := loadExchanges_first exchanges
  rw [head] at first
  obtain ⟨symbols,listed,rfl⟩ := loadExchange_writes first
  obtain ⟨_,rfl⟩ := loadEngine_writes engine
  obtain ⟨_,rfl⟩ := loadStrategies_writes strategies
  obtain ⟨_,rfl⟩ := loadRisk_writes risk
  obtain ⟨_,rfl⟩ := loadLog_writes log
  obtain ⟨_,rfl⟩ := loadZmq_writes zmq
  exact ⟨symbols,_,_,_,_,_,listed,rfl⟩

theorem loadConfig_true {getenv : String → Option String} {answer : Bool}
    (loaded : loadConfig y getenv (some root) cfg = .ok (answer,cfg')) : answer = true := by
  simp only [loadConfig,bind_ok] at loaded
  obtain ⟨_,_,_,_,_,_,_,_,_,_,_,_,last⟩ := loaded
  cases last
  rfl

end Writes
end Chronos
