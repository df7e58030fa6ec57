import Chronos.ConfigShapes
import Mathlib.Data.List.Nodup

namespace Chronos
open Yaml (Node Scalars Thrown bind_ok)

structure ExchangeConfig where
  name : String
  websocketUrl : String
  restUrl : String
  userStreamUrl : String
  proxyHost : String
  proxyPort : UInt16
  apiKey : String
  apiSecret : String
  symbols : List String
  deriving DecidableEq

structure LiveSetup where
  exCfg : ExchangeConfig
  gatewayName : String
  useRealExecution : Bool
  deriving DecidableEq

structure Venue where
  name : String
  url : String
  restUrl : String
  userStreamUrl : String
  symbols : List String
  deriving DecidableEq

section Live
variable {F : Type} [Double F] (cfg : AppConfig F)

def exchangeConfig : ExchangeConfig where
  name := cfg.exchangeName
  websocketUrl := cfg.exchangeUrl
  restUrl := cfg.restUrl
  userStreamUrl := cfg.userStreamUrl
  proxyHost := cfg.proxyHost
  proxyPort := cfg.proxyPort.toUInt32.toUInt16
  apiKey := cfg.exchangeApiKey
  apiSecret := cfg.exchangeApiSecret
  symbols := cfg.exchangeSymbols

def useRealExecution : Bool := !cfg.forceSimulate && cfg.exchangeApiKey ≠ "" && cfg.exchangeApiSecret ≠ ""

-- none stands for the exit when there is no websocket_url.
def runLive : Option LiveSetup :=
  if cfg.exchangeUrl = "" then none else some ⟨exchangeConfig cfg,cfg.exchangeName,useRealExecution cfg⟩

def AppConfig.venue : Venue :=
  ⟨cfg.exchangeName,cfg.exchangeUrl,cfg.restUrl,cfg.userStreamUrl,cfg.exchangeSymbols⟩

end Live

def ExchangeConfig.venue (exCfg : ExchangeConfig) : Venue :=
  ⟨exCfg.name,exCfg.websocketUrl,exCfg.restUrl,exCfg.userStreamUrl,exCfg.symbols⟩

def venueOf (y : Scalars F) (ex : Node) : Except Thrown Venue := do
  return {
    name := configuredName y ex
    url := Yaml.asText y (entryAt ex "websocket_url") ""
    restUrl := Yaml.asText y (entryAt ex "rest_url") ""
    userStreamUrl := Yaml.asText y (entryAt ex "user_stream_url") ""
    symbols := ← loadSymbols y ex}

structure TradesOn {F : Type} [Double F] (y : Scalars F) (ex : Node) (cfg : AppConfig F) : Prop where
  fields : venueOf y ex = .ok cfg.venue
  live : ∀ setup ∈ runLive cfg, venueOf y ex = .ok setup.exCfg.venue ∧ setup.gatewayName = configuredName y ex

section Selected
variable {F : Type} [Double F] {y : Scalars F} {getenv : String → Option String} {root ex : Node}

theorem runLive_venue {cfg : AppConfig F} : ∀ setup ∈ runLive cfg,
    setup.exCfg.venue = cfg.venue ∧ setup.gatewayName = cfg.exchangeName ∧ setup.useRealExecution = useRealExecution cfg := by
  intro setup made
  unfold runLive at made
  split at made
  · cases made
  · cases made
    exact ⟨rfl,rfl,rfl⟩

omit [Double F] in
theorem venueOf_name {v : Venue} (described : venueOf y ex = .ok v) : v.name = configuredName y ex := by
  obtain ⟨_,_,made⟩ := bind_ok.mp described
  cases made
  rfl

theorem loadConfig_venue {start cfg : AppConfig F} (fresh : start.exchangeSymbols = [])
    (loaded : loadConfig y getenv (some root) start = .ok (true,cfg)) (head : (exchangeEntries root).head? = some ex) :
    cfg.exchangeName = configuredName y ex ∧ TradesOn y ex cfg := by
  obtain ⟨symbols,_,_,_,_,_,listed,rfl⟩ := loadConfig_writes loaded head
  have fields : venueOf y ex = .ok (fromEntry y ex getenv symbols start).venue := by
    simp only [venueOf,listed,AppConfig.venue,fromEntry,fresh,List.nil_append]
    rfl
  refine ⟨rfl,fields,?_⟩
  intro setup made
  obtain ⟨venue,name,_⟩ := runLive_venue setup made
  rw [venue,name]
  exact ⟨fields,rfl⟩

-- The flag only agrees with the file: the entry it names is the one that is traded
-- when it stands first.
theorem selected_traded_iff {flags : Flags} {arguments : List String} {start cfg : AppConfig F}
    (parsed : parseArgs flags arguments {} = (true,start))
    (loaded : loadConfig y getenv (some root) start = .ok (true,cfg))
    (distinct : ((exchangeEntries root).map (configuredName y)).Nodup)
    (named : flags.exchange ∈ (exchangeEntries root).map (configuredName y)) :
    (∀ ex ∈ exchangeEntries root, configuredName y ex = flags.exchange → TradesOn y ex cfg) ↔
      (exchangeEntries root).head?.map (configuredName y) = some flags.exchange := by
  have fresh : start.exchangeSymbols = [] := by
    obtain rfl := (Prod.mk.inj parsed).2
    rfl
  cases entries : exchangeEntries root with
  | nil => simp [entries] at named
  | cons first rest =>
    rw [entries] at distinct named
    obtain ⟨name,trades⟩ := loadConfig_venue fresh loaded (congrArg List.head? entries)
    simp only [List.head?_cons,Option.map_some,Option.some.injEq]
    constructor
    · intro selected
      obtain ⟨ex,member,same⟩ := List.mem_map.mp named
      rw [← name,← same]
      exact venueOf_name (selected ex member same).fields
    · intro same ex member called
      obtain rfl := List.inj_on_of_nodup_map distinct member List.mem_cons_self (called.trans same.symm)
      exact trades

end Selected

def exchangeEntry (name websocket symbol : String) : Node :=
  .map [("name",.scalar name),("websocket_url",.scalar websocket),("symbols",.sequence [.scalar symbol])]

def binanceEntry : Node := exchangeEntry "binance" "wss://fstream.binance.com/ws" "btcusdt"
def okxEntry : Node := exchangeEntry "okx" "wss://ws.okx.com:8443/ws/v5/public" "BTC-USDT"

def exchangeDocument (entries : List Node) : Node := .map [("exchanges",.sequence entries)]
def bothExchanges : Node := exchangeDocument [binanceEntry,okxEntry]

def choosing (name : String) : AppConfig Rat := (parseArgs {config := "config.yaml", exchange := name} [] {}).2

def loadedWith (getenv : String → Option String) (root : Node) (start : AppConfig Rat) : AppConfig Rat :=
  match loadConfig plain getenv (some root) start with
  | .ok (_,cfg) => cfg
  | .error _ => start

theorem selected_traded_sample :
    (∀ ex ∈ exchangeEntries bothExchanges, configuredName plain ex = "binance" →
        TradesOn plain ex (loadedWith (fun _ => none) bothExchanges (choosing "binance"))) ↔
      (exchangeEntries bothExchanges).head?.map (configuredName plain) = some "binance" :=
  selected_traded_iff (show parseArgs {config := "config.yaml", exchange := "binance"} [] {} = (true,choosing "binance") from rfl)
    (show loadConfig plain (fun _ => none) (some bothExchanges) (choosing "binance") =
      .ok (true,loadedWith (fun _ => none) bothExchanges (choosing "binance")) from rfl) (by decide) (by decide)

theorem okx_not_traded :
    loadConfig plain (fun _ => none) (some bothExchanges) (choosing "okx") =
        .ok (true,loadedWith (fun _ => none) bothExchanges (choosing "okx")) ∧
      (exchangeEntries bothExchanges).map (configuredName plain) = ["binance","okx"] ∧
      (runLive (loadedWith (fun _ => none) bothExchanges (choosing "okx"))).map
        (fun setup => (setup.gatewayName,setup.exCfg.websocketUrl)) = some ("binance","wss://fstream.binance.com/ws") ∧
      ¬ ∀ ex ∈ exchangeEntries bothExchanges, configuredName plain ex = "okx" →
        TradesOn plain ex (loadedWith (fun _ => none) bothExchanges (choosing "okx")) := by
  refine ⟨rfl,rfl,rfl,?_⟩
  intro selected
  have second : okxEntry ∈ exchangeEntries bothExchanges := .tail _ (.head _)
  have name := venueOf_name (selected okxEntry second rfl).fields
  exact absurd name (by decide)

def placeholder (s : String) : Option String :=
  match s.toList with
  | '$' :: '{' :: rest => if 1 < rest.length ∧ rest.getLast? = some '}' then some (String.ofList rest.dropLast) else none
  | _ => none

theorem resolveEnv_placeholder {getenv : String → Option String} {s : String} :
    resolveEnv getenv s = (placeholder s).elim s (fun name => (getenv name).getD "") := by
  unfold resolveEnv placeholder
  generalize s.toList = characters
  split
  · rename_i rest
    by_cases closed : 1 < rest.length ∧ rest.getLast? = some '}'
    · simp only [if_pos closed,Option.elim_some]
    · simp only [if_neg closed,Option.elim_none]
  · simp

def credentials : List (String × String) := [("api_key","BINANCE_API_KEY"),("api_secret","BINANCE_API_SECRET")]

def SameElsewhere (one two : String → Option String) : Prop :=
  ∀ name, name ∉ credentials.map Prod.snd → one name = two name

def Unreferred (y : Scalars F) (ex : Node) : Prop :=
  ∀ entry ∈ credentials, ∀ name ∈ placeholder (Yaml.asText y (entryAt ex entry.1) ""), name ∉ credentials.map Prod.snd

-- What a credential falls back to makes no difference, because it has a value of
-- its own or because both environments give the same.
def Settled (y : Scalars F) (ex : Node) (one two : String → Option String) : Prop :=
  ∀ entry ∈ credentials, resolveEnv one (Yaml.asText y (entryAt ex entry.1) "") ≠ "" ∨
    (one entry.2).getD "" = (two entry.2).getD ""

structure SameAccess {F : Type} [Double F] (first second : AppConfig F) : Prop where
  apiKey : first.exchangeApiKey = second.exchangeApiKey
  apiSecret : first.exchangeApiSecret = second.exchangeApiSecret
  execution : useRealExecution first = useRealExecution second

section Access
variable {F : Type} [Double F] {y : Scalars F} {one two : String → Option String} {root ex : Node}

omit [Double F] in
theorem resolved_same (elsewhere : SameElsewhere one two) (unreferred : Unreferred y ex) (member : entry ∈ credentials) :
    resolveEnv one (Yaml.asText y (entryAt ex entry.1) "") = resolveEnv two (Yaml.asText y (entryAt ex entry.1) "") := by
  rw [resolveEnv_placeholder,resolveEnv_placeholder]
  cases refers : placeholder (Yaml.asText y (entryAt ex entry.1) "") with
  | none => rfl
  | some name => simp only [Option.elim_some,elsewhere name (unreferred entry member name refers)]

omit [Double F] in
theorem credential_same_iff (elsewhere : SameElsewhere one two) (unreferred : Unreferred y ex) (member : entry ∈ credentials) :
    credential y ex one entry.1 entry.2 = credential y ex two entry.1 entry.2 ↔
      resolveEnv one (Yaml.asText y (entryAt ex entry.1) "") ≠ "" ∨ (one entry.2).getD "" = (two entry.2).getD "" := by
  unfold credential
  rw [← resolved_same elsewhere unreferred member]
  by_cases empty : resolveEnv one (Yaml.asText y (entryAt ex entry.1) "") = ""
  · simp [empty]
  · simp [empty]

theorem sameAccess_iff {first second : AppConfig F} (mode : first.forceSimulate = second.forceSimulate) :
    SameAccess first second ↔
      first.exchangeApiKey = second.exchangeApiKey ∧ first.exchangeApiSecret = second.exchangeApiSecret := by
  constructor
  · intro same
    exact ⟨same.apiKey,same.apiSecret⟩
  · intro ⟨apiKey,apiSecret⟩
    exact ⟨apiKey,apiSecret,by rw [useRealExecution,useRealExecution,mode,apiKey,apiSecret]⟩

theorem loadConfig_access {start cfg : AppConfig F} (loaded : loadConfig y one (some root) start = .ok (true,cfg))
    (head : (exchangeEntries root).head? = some ex) :
    cfg.exchangeApiKey = credential y ex one "api_key" "BINANCE_API_KEY" ∧
      cfg.exchangeApiSecret = credential y ex one "api_secret" "BINANCE_API_SECRET" ∧ cfg.forceSimulate = start.forceSimulate := by
  obtain ⟨_,_,_,_,_,_,_,rfl⟩ := loadConfig_writes loaded head
  exact ⟨rfl,rfl,rfl⟩

theorem sameAccess_settled_iff {start first : AppConfig F} (elsewhere : SameElsewhere one two)
    (head : (exchangeEntries root).head? = some ex) (unreferred : Unreferred y ex)
    (loaded : loadConfig y one (some root) start = .ok (true,first)) :
    ∃ second, loadConfig y two (some root) start = .ok (true,second) ∧
      (SameAccess first second ↔ Settled y ex one two) := by
  have readable : Readable y root := loadConfig_root.mp ⟨_,loaded⟩
  obtain ⟨⟨answer,second⟩,again⟩ := (@loadConfig_root _ _ y root start two).mpr readable
  obtain rfl := loadConfig_true again
  refine ⟨second,again,?_⟩
  obtain ⟨key,secret,mode⟩ := loadConfig_access loaded head
  obtain ⟨key',secret',mode'⟩ := loadConfig_access again head
  have settled : Settled y ex one two ↔ ∀ entry ∈ credentials, credential y ex one entry.1 entry.2 = credential y ex two entry.1 entry.2 :=
    forall₂_congr fun _ member => (credential_same_iff elsewhere unreferred member).symm
  rw [sameAccess_iff (mode.trans mode'.symm),key,key',secret,secret',settled]
  simp [credentials]

end Access

def keyedEntry : Node := .map [("name",.scalar "okx"),("websocket_url",.scalar "wss://ws.okx.com:8443/ws/v5/public"),
  ("api_key",.scalar "${OKX_API_KEY}"),("api_secret",.scalar "${OKX_API_SECRET}")]

def keyedDocument : Node := exchangeDocument [keyedEntry]

def exported (name : String) : Option String :=
  if name = "BINANCE_API_KEY" then some "key" else if name = "BINANCE_API_SECRET" then some "secret" else none
def bare (_ : String) : Option String := none

theorem exported_elsewhere : SameElsewhere bare exported := by
  intro name other
  simp only [credentials,List.map_cons,List.map_nil,List.mem_cons,List.not_mem_nil,or_false,not_or] at other
  rw [exported,if_neg other.1,if_neg other.2,bare]

theorem keyedEntry_unreferred : Unreferred plain keyedEntry := by
  unfold Unreferred
  decide

theorem sameAccess_settled_sample : ∃ second,
    loadConfig plain exported (some keyedDocument) started = .ok (true,second) ∧
      (SameAccess (loadedWith bare keyedDocument started) second ↔ Settled plain keyedEntry bare exported) :=
  sameAccess_settled_iff exported_elsewhere rfl keyedEntry_unreferred rfl

theorem okx_binance_keys :
    loadConfig plain bare (some keyedDocument) started = .ok (true,loadedWith bare keyedDocument started) ∧
      loadConfig plain exported (some keyedDocument) started = .ok (true,loadedWith exported keyedDocument started) ∧
      configuredName plain keyedEntry = "okx" ∧ SameElsewhere bare exported ∧ Unreferred plain keyedEntry ∧
      (loadedWith bare keyedDocument started).exchangeApiKey = "" ∧
      (loadedWith exported keyedDocument started).exchangeApiKey = "key" ∧
      useRealExecution (loadedWith bare keyedDocument started) = false ∧
      useRealExecution (loadedWith exported keyedDocument started) = true ∧
      ¬ SameAccess (loadedWith bare keyedDocument started) (loadedWith exported keyedDocument started) := by
  refine ⟨rfl,rfl,rfl,exported_elsewhere,keyedEntry_unreferred,rfl,rfl,rfl,rfl,?_⟩
  intro same
  exact absurd same.apiKey (by decide)

end Chronos
