import Chronos.ConfiguredLimits

namespace Chronos
open Yaml (Node Scalars Thrown Returns text? ok_bind returns_pure returns_bind returns_last mapM_returns text_returns)

-- A subscript throws on a scalar and nowhere else.
section Subscripts
variable {node : Node}

theorem subscript_plain (plain : node.isScalar = false) : node.subscript key = .ok (entryAt node key) := by
  cases node with
  | scalar => cases plain
  | undefined | null | sequence | map => rfl

theorem subscript_returns : Returns (node.subscript key) ↔ node.isScalar = false := by
  constructor
  · intro returned
    cases node with
    | scalar =>
      obtain ⟨_,found⟩ := returned
      cases found
    | undefined | null | sequence | map => rfl
  · intro plain
    exact ⟨_,subscript_plain plain⟩

theorem index_returns {y : Scalars F} {i : Nat} : Returns (node.index y i) ↔ node.isScalar = false := by
  cases node <;> simp [Node.index,Node.isScalar]

theorem subscript_then {next : Node → Except Thrown α} {P : Prop}
    (rest : node.isScalar = false → (Returns (next (entryAt node key)) ↔ P)) :
    Returns (node.subscript key >>= next) ↔ node.isScalar = false ∧ P := by
  rw [← subscript_returns]
  refine returns_bind fun value found => ?_
  rw [← entryAt_eq found]
  exact rest (subscript_returns.mp ⟨value,found⟩)

theorem section_returns {body other : Except Thrown α} {P : Prop} (inside : Returns body ↔ P) (outside : Returns other)
    (absent : node = .undefined → P) : Returns (if node.isDefined then body else other) ↔ P := by
  cases node with
  | undefined => exact iff_of_true outside (absent rfl)
  | null | scalar | sequence | map => exact inside

theorem entries_returns {next : Node → Except Thrown α} {other : Except Thrown α}
    (rest : node.isScalar = false → Returns (next (entryAt node key))) (outside : Returns other) :
    Returns (if node.isDefined then node.subscript key >>= next else other) ↔ node.isScalar = false := by
  refine section_returns ?_ outside (by rintro rfl; rfl)
  rw [subscript_then (P:=True) fun plain => iff_true_intro (rest plain),and_true]

end Subscripts

-- An entry of strategies that can be read; one that is not enabled is read no further.
structure ReadableStrategy (y : Scalars F) (s : Node) : Prop where
  entry : s.isScalar = false
  parameters : Yaml.asBool y (entryAt s "enabled") true = true → (entryAt s "parameters").isScalar = false
  symbols : Yaml.asBool y (entryAt s "enabled") true = true →
    (entryAt (entryAt s "parameters") "symbol_ids").isScalar = false

structure ReadableExchange (y : Scalars F) (ex : Node) : Prop where
  entry : ex.isScalar = false
  symbols : ∀ s ∈ (entryAt ex "symbols").items?.getD [], (text? y s).isSome

structure Readable (y : Scalars F) (root : Node) : Prop where
  document : root.isScalar = false
  sections : ∀ key ∈ ["engine","risk","log","zmq"], (entryAt root key).isScalar = false
  strategies : ∀ s ∈ (entryAt root "strategies").items?.getD [], ReadableStrategy y s
  exchange : ∀ ex ∈ (exchangeEntries root).head?, ReadableExchange y ex

section Load
variable {F : Type} [Double F] {y : Scalars F} {root : Node} {cfg : AppConfig F}

theorem loadEngine_returns :
    Returns (loadEngine y root cfg) ↔ root.isScalar = false ∧ (entryAt root "engine").isScalar = false :=
  subscript_then fun _ => entries_returns (fun _ => returns_pure) returns_pure

theorem loadRisk_returns :
    Returns (loadRisk y root cfg) ↔ root.isScalar = false ∧ (entryAt root "risk").isScalar = false := by
  refine subscript_then fun _ => entries_returns (fun plain => ?_) returns_pure
  simp only [subscript_plain plain,ok_bind]
  exact returns_pure

theorem loadLog_returns :
    Returns (loadLog y root cfg) ↔ root.isScalar = false ∧ (entryAt root "log").isScalar = false :=
  subscript_then fun _ => entries_returns (fun _ => returns_pure) returns_pure

theorem loadZmq_returns :
    Returns (loadZmq y root cfg) ↔ root.isScalar = false ∧ (entryAt root "zmq").isScalar = false := by
  refine subscript_then fun _ => entries_returns (fun plain => ?_) returns_pure
  simp only [subscript_plain plain,ok_bind]
  exact returns_pure

theorem loadStrategy_returns {s : Node} : Returns (loadStrategy y s) ↔ ReadableStrategy y s := by
  have parts : ReadableStrategy y s ↔ s.isScalar = false ∧ (Yaml.asBool y (entryAt s "enabled") true = true →
      (entryAt s "parameters").isScalar = false ∧ (entryAt (entryAt s "parameters") "symbol_ids").isScalar = false) :=
    ⟨fun ⟨entry,parameters,symbols⟩ => ⟨entry,fun on => ⟨parameters on,symbols on⟩⟩,
      fun ⟨entry,rest⟩ => ⟨entry,fun on => (rest on).1,fun on => (rest on).2⟩⟩
  rw [parts]
  refine subscript_then fun plain => ?_
  cases on : Yaml.asBool y (entryAt s "enabled") true with
  | false => simp
  | true =>
    simp only [subscript_plain plain,ok_bind,Bool.not_true,Bool.false_eq_true,if_false,forall_const]
    refine section_returns (subscript_then fun inner => ?_) returns_pure (fun absent => by rw [absent]; exact ⟨rfl,rfl⟩)
    simp only [subscript_plain inner,ok_bind]
    rw [returns_last,index_returns]

theorem loadStrategies_returns : Returns (loadStrategies y root cfg) ↔
    root.isScalar = false ∧ ∀ s ∈ (entryAt root "strategies").items?.getD [], ReadableStrategy y s := by
  refine subscript_then fun _ => ?_
  cases (entryAt root "strategies").items? with
  | none => simp
  | some items =>
    simp only [Option.getD_some,← loadStrategy_returns]
    rw [returns_last,mapM_returns]

omit [Double F] in
theorem loadSymbols_returns {ex : Node} : Returns (loadSymbols y ex) ↔
    ex.isScalar = false ∧ ∀ s ∈ (entryAt ex "symbols").items?.getD [], (text? y s).isSome := by
  refine subscript_then fun _ => ?_
  cases (entryAt ex "symbols").items? with
  | none => simp
  | some items => simp only [Option.getD_some,← text_returns,mapM_returns]

theorem loadExchange_returns {getenv : String → Option String} {ex : Node} :
    Returns (loadExchange y getenv ex cfg) ↔ ReadableExchange y ex := by
  have parts : ReadableExchange y ex ↔ ex.isScalar = false ∧ Returns (loadSymbols y ex) := by
    rw [loadSymbols_returns]
    exact ⟨fun ⟨entry,symbols⟩ => ⟨entry,entry,symbols⟩,fun ⟨entry,_,symbols⟩ => ⟨entry,symbols⟩⟩
  rw [parts]
  refine subscript_then fun plain => ?_
  simp only [subscript_plain plain,ok_bind]
  exact returns_last

theorem loadExchanges_returns {getenv : String → Option String} : Returns (loadExchanges y getenv root cfg) ↔
    root.isScalar = false ∧ ∀ ex ∈ (exchangeEntries root).head?, ReadableExchange y ex := by
  refine subscript_then fun _ => ?_
  unfold exchangeEntries
  cases (entryAt root "exchanges").items? with
  | none => simp
  | some items =>
    cases items with
    | nil => simp
    | cons ex rest => simpa using loadExchange_returns

theorem loadConfig_root {getenv : String → Option String} :
    Returns (loadConfig y getenv (some root) cfg) ↔ Readable y root := by
  have parts : Readable y root ↔ (root.isScalar = false ∧ (entryAt root "engine").isScalar = false) ∧
      (root.isScalar = false ∧ ∀ s ∈ (entryAt root "strategies").items?.getD [], ReadableStrategy y s) ∧
      (root.isScalar = false ∧ ∀ ex ∈ (exchangeEntries root).head?, ReadableExchange y ex) ∧
      (root.isScalar = false ∧ (entryAt root "risk").isScalar = false) ∧
      (root.isScalar = false ∧ (entryAt root "log").isScalar = false) ∧
      (root.isScalar = false ∧ (entryAt root "zmq").isScalar = false) := by
    constructor
    · intro ⟨document,sections,strategies,exchange⟩
      simp only [List.forall_mem_cons] at sections
      obtain ⟨engine,risk,log,zmq,_⟩ := sections
      exact ⟨⟨document,engine⟩,⟨document,strategies⟩,⟨document,exchange⟩,⟨document,risk⟩,⟨document,log⟩,⟨document,zmq⟩⟩
    · intro ⟨⟨document,engine⟩,⟨_,strategies⟩,⟨_,exchange⟩,⟨_,risk⟩,⟨_,log⟩,⟨_,zmq⟩⟩
      refine ⟨document,?_,strategies,exchange⟩
      simp only [List.forall_mem_cons]
      exact ⟨engine,risk,log,zmq,by simp⟩
  rw [parts,← @loadEngine_returns _ _ y root cfg]
  refine returns_bind fun one _ => ?_
  rw [← @loadStrategies_returns _ _ y root one]
  refine returns_bind fun two _ => ?_
  rw [← @loadExchanges_returns _ _ y root two getenv]
  refine returns_bind fun three _ => ?_
  rw [← @loadRisk_returns _ _ y root three]
  refine returns_bind fun four _ => ?_
  rw [← @loadLog_returns _ _ y root four]
  refine returns_bind fun five _ => ?_
  rw [← @loadZmq_returns _ _ y root five]
  exact returns_last

theorem loadConfig_returns_iff {getenv : String → Option String} {file : Option Node} :
    Returns (loadConfig y getenv file cfg) ↔ ∀ root, file = some root → Readable y root := by
  cases file with
  | none => simp [loadConfig]
  | some root => simpa using loadConfig_root

end Load

def numberedRisk : Node := .map [("engine",.map [("initial_capital",.scalar "100000.0")]),("risk",.scalar "5")]

theorem numbered_risk_throws :
    loadConfig plain (fun _ => none) (some numberedRisk) started = .error .badSubscript ∧
      ¬ ∀ file, Returns (loadConfig plain (fun _ => none) file started) := by
  refine ⟨rfl,?_⟩
  intro every
  obtain ⟨_,loaded⟩ := every (some numberedRisk)
  cases loaded

end Chronos
