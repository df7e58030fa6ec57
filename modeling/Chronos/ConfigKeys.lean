import Chronos.ConfiguredLimits
import Chronos.YamlEdits

namespace Chronos
open Yaml (Node Scalars Alike Conform Agree agree_eq alike_conform)

def configKeys : List String :=
  ["engine","initial_capital","strategies","enabled","name","parameters","grid_low","grid_high","grid_levels","quantity",
   "symbol_ids","exchanges","websocket_url","rest_url","user_stream_url","proxy_host","proxy_port","api_key","api_secret",
   "symbols","risk","max_order_value","max_position_value","max_orders_per_second","max_total_position_value",
   "min_available_capital","max_drawdown_percent","log","output_dir","zmq","publish_endpoint","high_water_mark","linger_ms"]

section Alike
variable {F : Type} {y : Scalars F} {node node' : Node}

theorem alike_subscript (alike : Alike y configKeys node node') (key : String)
    (read : key ∈ configKeys := by simp [configKeys]) : Agree (Alike y configKeys) (node.subscript key) (node'.subscript key) :=
  (alike_conform alike).subscript key read

theorem alike_double (alike : Alike y configKeys node node') : Yaml.asDouble y node = Yaml.asDouble y node' := by
  funext fallback
  rw [Yaml.asDouble,(alike_conform alike).scalar,Yaml.asDouble]

theorem alike_int (alike : Alike y configKeys node node') : Yaml.asInt y node = Yaml.asInt y node' := by
  funext fallback
  rw [Yaml.asInt,(alike_conform alike).scalar,Yaml.asInt]

theorem alike_uint32 (alike : Alike y configKeys node node') : Yaml.asUint32 y node = Yaml.asUint32 y node' := by
  funext fallback
  rw [Yaml.asUint32,(alike_conform alike).scalar,Yaml.asUint32]

theorem alike_bool (alike : Alike y configKeys node node') : Yaml.asBool y node = Yaml.asBool y node' := by
  funext fallback
  rw [Yaml.asBool,(alike_conform alike).scalar,Yaml.asBool]

theorem alike_asText (alike : Alike y configKeys node node') : Yaml.asText y node = Yaml.asText y node' := by
  funext fallback
  rw [Yaml.asText,(alike_conform alike).text,Yaml.asText]

theorem alike_text (alike : Alike y configKeys node node') : Yaml.text y node = Yaml.text y node' := by
  rw [Yaml.text,(alike_conform alike).text,Yaml.text]

theorem agree_last {α : Type} (step : Except Yaml.Thrown α) : Agree Eq step step := .refl (fun _ => rfl) step

theorem alike_items {α : Type} {f : Node → Except Yaml.Thrown α} (each : ∀ a b, Alike y configKeys a b → f a = f b)
    (alike : Alike y configKeys node node') :
    (∃ items items', node.items? = some items ∧ node'.items? = some items' ∧ items.mapM f = items'.mapM f) ∨
      node.items? = none ∧ node'.items? = none := by
  have items := (alike_conform alike).items
  cases one : node.items? <;> cases other : node'.items? <;> rw [one,other] at items <;> cases items
  · exact .inr ⟨rfl,rfl⟩
  · rename_i alike
    have agree := Agree.mapM (Q:=Eq) (fun a b same => agree_eq.mpr (each a b same)) alike
    refine .inl ⟨_,_,rfl,rfl,agree_eq.mp ?_⟩
    rwa [List.forall₂_eq_eq_eq] at agree

end Alike

section Load
variable {F : Type} [Double F] {y : Scalars F} {root root' : Node} {cfg : AppConfig F}

theorem loadEngine_alike (alike : Alike y configKeys root root') : loadEngine y root cfg = loadEngine y root' cfg := by
  refine agree_eq.mp ((alike_subscript alike "engine").bind fun eng eng' engine => ?_)
  rw [(alike_conform engine).defined]
  split
  · refine (alike_subscript engine "initial_capital").bind fun _ _ capital => ?_
    rw [alike_double capital]
    exact agree_last _
  · exact agree_last _

theorem loadStrategy_alike {s s' : Node} (alike : Alike y configKeys s s') : loadStrategy y s = loadStrategy y s' := by
  refine agree_eq.mp ((alike_subscript alike "enabled").bind fun _ _ enabled => ?_)
  rw [alike_bool enabled]
  split
  · exact agree_last _
  · refine (alike_subscript alike "name").bind fun _ _ name => ?_
    refine (alike_subscript alike "parameters").bind fun p p' parameters => ?_
    rw [(alike_conform parameters).defined,alike_asText name]
    split
    · refine (alike_subscript parameters "grid_low").bind fun _ _ low => ?_
      refine (alike_subscript parameters "grid_high").bind fun _ _ high => ?_
      refine (alike_subscript parameters "grid_levels").bind fun _ _ levels => ?_
      refine (alike_subscript parameters "quantity").bind fun _ _ quantity => ?_
      refine (alike_subscript parameters "symbol_ids").bind fun _ _ symbols => ?_
      refine (alike_conform symbols).first.bind fun _ _ symbol => ?_
      rw [alike_double low,alike_double high,alike_int levels,alike_double quantity,alike_uint32 symbol]
      exact agree_last _
    · exact agree_last _

theorem loadStrategies_alike (alike : Alike y configKeys root root') : loadStrategies y root cfg = loadStrategies y root' cfg := by
  refine agree_eq.mp ((alike_subscript alike "strategies").bind fun _ _ strategies => ?_)
  rcases alike_items (fun _ _ => loadStrategy_alike) strategies with ⟨items,items',one,other,same⟩ | ⟨one,other⟩
  · rw [one,other]
    simp only [same]
    exact agree_last _
  · rw [one,other]
    exact agree_last _

omit [Double F] in
theorem loadSymbols_alike {ex ex' : Node} (alike : Alike y configKeys ex ex') : loadSymbols y ex = loadSymbols y ex' := by
  refine agree_eq.mp ((alike_subscript alike "symbols").bind fun _ _ symbols => ?_)
  rcases alike_items (fun _ _ => alike_text) symbols with ⟨items,items',one,other,same⟩ | ⟨one,other⟩
  · rw [one,other]
    exact agree_eq.mpr same
  · rw [one,other]
    exact agree_last _

theorem loadExchange_alike {getenv : String → Option String} {ex ex' : Node} (alike : Alike y configKeys ex ex') :
    loadExchange y getenv ex cfg = loadExchange y getenv ex' cfg := by
  refine agree_eq.mp ((alike_subscript alike "name").bind fun _ _ name => ?_)
  refine (alike_subscript alike "websocket_url").bind fun _ _ url => ?_
  refine (alike_subscript alike "rest_url").bind fun _ _ rest => ?_
  refine (alike_subscript alike "user_stream_url").bind fun _ _ user => ?_
  refine (alike_subscript alike "proxy_host").bind fun _ _ host => ?_
  refine (alike_subscript alike "proxy_port").bind fun _ _ port => ?_
  refine (alike_subscript alike "api_key").bind fun _ _ key => ?_
  refine (alike_subscript alike "api_secret").bind fun _ _ secret => ?_
  rw [loadSymbols_alike alike,alike_asText name,alike_asText url,alike_asText rest,alike_asText user,alike_asText host,
    alike_int port,alike_asText key,alike_asText secret]
  exact agree_last _

theorem loadExchanges_alike {getenv : String → Option String} (alike : Alike y configKeys root root') :
    loadExchanges y getenv root cfg = loadExchanges y getenv root' cfg := by
  refine agree_eq.mp ((alike_subscript alike "exchanges").bind fun a b exchanges => ?_)
  have items := (alike_conform exchanges).items
  cases one : a.items? <;> cases other : b.items? <;> rw [one,other] at items <;> cases items
  · exact agree_last _
  · rename_i entries
    cases entries with
    | nil => exact agree_last _
    | cons first _ => exact agree_eq.mpr (loadExchange_alike first)

theorem loadRisk_alike (alike : Alike y configKeys root root') : loadRisk y root cfg = loadRisk y root' cfg := by
  refine agree_eq.mp ((alike_subscript alike "risk").bind fun r r' risk => ?_)
  rw [(alike_conform risk).defined]
  split
  · refine (alike_subscript risk "max_order_value").bind fun _ _ order => ?_
    refine (alike_subscript risk "max_position_value").bind fun _ _ position => ?_
    refine (alike_subscript risk "max_orders_per_second").bind fun _ _ rate => ?_
    refine (alike_subscript risk "max_total_position_value").bind fun _ _ total => ?_
    refine (alike_subscript risk "min_available_capital").bind fun _ _ capital => ?_
    refine (alike_subscript risk "max_drawdown_percent").bind fun _ _ drawdown => ?_
    rw [alike_double order,alike_double position,alike_int rate,alike_double total,alike_double capital,alike_double drawdown]
    exact agree_last _
  · exact agree_last _

theorem loadLog_alike (alike : Alike y configKeys root root') : loadLog y root cfg = loadLog y root' cfg := by
  refine agree_eq.mp ((alike_subscript alike "log").bind fun _ _ log => ?_)
  rw [(alike_conform log).defined]
  split
  · refine (alike_subscript log "output_dir").bind fun _ _ dir => ?_
    rw [alike_asText dir]
    exact agree_last _
  · exact agree_last _

theorem loadZmq_alike (alike : Alike y configKeys root root') : loadZmq y root cfg = loadZmq y root' cfg := by
  refine agree_eq.mp ((alike_subscript alike "zmq").bind fun _ _ zmq => ?_)
  rw [(alike_conform zmq).defined]
  split
  · refine (alike_subscript zmq "publish_endpoint").bind fun _ _ endpoint => ?_
    refine (alike_subscript zmq "high_water_mark").bind fun _ _ hwm => ?_
    refine (alike_subscript zmq "linger_ms").bind fun _ _ linger => ?_
    rw [alike_asText endpoint,alike_int hwm,alike_int linger]
    exact agree_last _
  · exact agree_last _

-- Documents that differ in the order of their entries, or in entries under other
-- keys, at any depth, are loaded alike, down to the exception that is thrown.
theorem loadConfig_alike {F : Type} [Double F] {y : Scalars F} {root root' : Node} {getenv : String → Option String}
    {cfg : AppConfig F} (alike : Alike y configKeys root root') :
    loadConfig y getenv (some root) cfg = loadConfig y getenv (some root') cfg := by
  simp only [loadConfig,loadEngine_alike alike,loadStrategies_alike alike,loadExchanges_alike alike,loadRisk_alike alike,
    loadLog_alike alike,loadZmq_alike alike]

def tunedDocument : Node :=
  .map [("log",.map [("buffer_size",.scalar "65536"),("output_dir",.scalar "./logs")]),
    ("risk",.map [("max_orders_per_second",.scalar "100")])]

def plainDocument : Node :=
  .map [("risk",.map [("max_orders_per_second",.scalar "100")]),("log",.map [("output_dir",.scalar "./logs")])]

theorem loadConfig_alike_sample : loadConfig plain (fun _ => none) (some tunedDocument) started =
    loadConfig plain (fun _ => none) (some plainDocument) started := by
  have unread : Yaml.Edit plain configKeys (.map ([]++("buffer_size",.scalar "65536")::[("output_dir",.scalar "./logs")]))
      (.map ([]++[("output_dir",.scalar "./logs")])) := .extra (by simp [configKeys]) (by decide)
  have inside : Yaml.Edit plain configKeys tunedDocument
      (.map ([]++("log",.map ([]++[("output_dir",.scalar "./logs")]))::[("risk",.map [("max_orders_per_second",.scalar "100")])])) :=
    @Yaml.Edit.value _ _ _ _ _ [] _ _ unread
  exact loadConfig_alike (.trans _ _ _ (.rel _ _ inside) (.rel _ _ (.reorder (List.Perm.swap _ _ _) (by decide) (by decide))))

end Load
end Chronos
