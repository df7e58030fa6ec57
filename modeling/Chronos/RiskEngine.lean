import Chronos.Runs
import Chronos.Types

namespace Chronos.RiskEngine

inductive Limit where
  | maxOrderValue
  | maxPositionValue
  | maxTotalPositionValue
  | minAvailableCapital
  | maxOrdersPerSecond
  deriving DecidableEq

inductive Param where
  | maxOrderValue
  | maxPositionValue
  | maxOrdersPerSecond
  | maxTotalPositionValue
  | minAvailableCapital
  | maxDrawdownPercent
  deriving DecidableEq

abbrev Limit.Value : Limit → Type
  | .maxOrdersPerSecond => UInt32
  | _ => Decimal

abbrev Param.Value (F : Type) : Param → Type
  | .maxOrdersPerSecond => UInt32
  | _ => F

instance : (l : Limit) → DecidableEq l.Value
  | .maxOrdersPerSecond => inferInstanceAs (DecidableEq UInt32)
  | .maxOrderValue | .maxPositionValue | .maxTotalPositionValue | .minAvailableCapital => inferInstanceAs (DecidableEq Decimal)

-- Records are functions of their field names, so that one step can copy one field.
abbrev HotParams := (l : Limit) → l.Value
abbrev RiskParameters (F : Type) := (k : Param) → k.Value F

def Limit.all : List Limit :=
  [.maxOrderValue,.maxPositionValue,.maxTotalPositionValue,.minAvailableCapital,.maxOrdersPerSecond]

def Param.all : List Param :=
  [.maxOrderValue,.maxPositionValue,.maxOrdersPerSecond,.maxTotalPositionValue,.minAvailableCapital,.maxDrawdownPercent]

inductive ColdField where
  | params (k : Param)
  | hot (l : Limit)
  deriving DecidableEq

abbrev ColdField.Value (F : Type) : ColdField → Type
  | .params k => k.Value F
  | .hot l => l.Value

instance [DecidableEq F] : (f : ColdField) → DecidableEq (f.Value F)
  | .params .maxOrdersPerSecond => inferInstanceAs (DecidableEq UInt32)
  | .params .maxOrderValue | .params .maxPositionValue | .params .maxTotalPositionValue
  | .params .minAvailableCapital | .params .maxDrawdownPercent => inferInstanceAs (DecidableEq F)
  | .hot l => inferInstanceAs (DecidableEq l.Value)

abbrev HotRead := (l : Limit) × l.Value
abbrev ColdRead (F : Type) := (f : ColdField) × f.Value F

structure ColdParams (F : Type) where
  params : RiskParameters F
  hot : HotParams
  version : BitVec 64

section Conversion
variable {F : Type} [Double F]

def convert (params : RiskParameters F) : (l : Limit) → l.Value
  | .maxOrderValue => toDecimal (params .maxOrderValue)
  | .maxPositionValue => toDecimal (params .maxPositionValue)
  | .maxTotalPositionValue => toDecimal (params .maxTotalPositionValue)
  | .minAvailableCapital => toDecimal (params .minAvailableCapital)
  | .maxOrdersPerSecond => params .maxOrdersPerSecond

def buildHot (params : RiskParameters F) : HotParams := convert params

end Conversion

def ColdParams.get (cold : ColdParams F) : (f : ColdField) → f.Value F
  | .params k => cold.params k
  | .hot l => cold.hot l

structure Shared (F : Type) where
  hot : HotParams
  version : BitVec 64
  cold : Fin 2 → ColdParams F
  active : Fin 2
  writeIdx : Fin 2

namespace Shared
variable {F : Type}

def setHot (s : Shared F) (l : Limit) (v : l.Value) : Shared F := {s with hot := Function.update s.hot l v}

def setCold (s : Shared F) (i : Fin 2) (cold : ColdParams F) : Shared F :=
  {s with cold := Function.update s.cold i cold}

def setParam (s : Shared F) (i : Fin 2) (k : Param) (v : k.Value F) : Shared F :=
  s.setCold i {s.cold i with params := Function.update (s.cold i).params k v}

def setColdHot (s : Shared F) (i : Fin 2) (l : Limit) (v : l.Value) : Shared F :=
  s.setCold i {s.cold i with hot := Function.update (s.cold i).hot l v}

def setColdVersion (s : Shared F) (i : Fin 2) (v : BitVec 64) : Shared F :=
  s.setCold i {s.cold i with version := v}

@[simp] theorem setHot_version (s : Shared F) (l : Limit) (v : l.Value) : (s.setHot l v).version = s.version := rfl
@[simp] theorem setHot_cold (s : Shared F) (l : Limit) (v : l.Value) : (s.setHot l v).cold = s.cold := rfl
@[simp] theorem setHot_active (s : Shared F) (l : Limit) (v : l.Value) : (s.setHot l v).active = s.active := rfl
@[simp] theorem setHot_hot (s : Shared F) (l : Limit) (v : l.Value) : (s.setHot l v).hot = Function.update s.hot l v := rfl

@[simp] theorem setParam_hot (s : Shared F) (i : Fin 2) (k : Param) (v : k.Value F) : (s.setParam i k v).hot = s.hot := rfl
@[simp] theorem setParam_version (s : Shared F) (i : Fin 2) (k : Param) (v : k.Value F) :
    (s.setParam i k v).version = s.version := rfl
@[simp] theorem setParam_active (s : Shared F) (i : Fin 2) (k : Param) (v : k.Value F) :
    (s.setParam i k v).active = s.active := rfl
theorem setParam_other (s : Shared F) {i j : Fin 2} (k : Param) (v : k.Value F) (other : j ≠ i) :
    (s.setParam i k v).cold j = s.cold j := by simp [setParam,setCold,other]

@[simp] theorem setColdHot_hot (s : Shared F) (i : Fin 2) (l : Limit) (v : l.Value) : (s.setColdHot i l v).hot = s.hot := rfl
@[simp] theorem setColdHot_version (s : Shared F) (i : Fin 2) (l : Limit) (v : l.Value) :
    (s.setColdHot i l v).version = s.version := rfl
@[simp] theorem setColdHot_active (s : Shared F) (i : Fin 2) (l : Limit) (v : l.Value) :
    (s.setColdHot i l v).active = s.active := rfl
theorem setColdHot_other (s : Shared F) {i j : Fin 2} (l : Limit) (v : l.Value) (other : j ≠ i) :
    (s.setColdHot i l v).cold j = s.cold j := by simp [setColdHot,setCold,other]

@[simp] theorem setColdVersion_hot (s : Shared F) (i : Fin 2) (v : BitVec 64) : (s.setColdVersion i v).hot = s.hot := rfl
@[simp] theorem setColdVersion_version (s : Shared F) (i : Fin 2) (v : BitVec 64) :
    (s.setColdVersion i v).version = s.version := rfl
@[simp] theorem setColdVersion_active (s : Shared F) (i : Fin 2) (v : BitVec 64) :
    (s.setColdVersion i v).active = s.active := rfl
theorem setColdVersion_get (s : Shared F) (i j : Fin 2) (v : BitVec 64) :
    ((s.setColdVersion i v).cold j).get = (s.cold j).get := by
  by_cases same : j = i
  · subst j
    funext f
    cases f <;> simp [setColdVersion,setCold,ColdParams.get]
  · simp [setColdVersion,setCold,same]

def getWriteBuffer (s : Shared F) : ColdParams F := s.cold s.writeIdx

@[simp] theorem setCold_getWriteBuffer (s : Shared F) (cold : ColdParams F) :
    (s.setCold s.writeIdx cold).getWriteBuffer = cold := by simp [getWriteBuffer,setCold]

def swapColdBuffers (s : Shared F) : Shared F :=
  let s := {s with active := s.writeIdx}
  let s := {s with writeIdx := if s.writeIdx = 0 then 1 else 0}
  s.setCold s.writeIdx {s.getWriteBuffer with hot := s.hot}

def publishParams [Double F] (s : Shared F) : Shared F :=
  let dark := s.writeIdx
  let s := s.setCold dark {s.cold dark with hot := buildHot (s.cold dark).params}
  let s := s.setColdVersion dark (s.version+1)
  let s := {s with version := s.version+1}
  let s := {s with hot := (s.cold dark).hot}
  let s := {s with version := s.version+1}
  s.swapColdBuffers

def update [Double F] (s : Shared F) (p : RiskParameters F) : Shared F :=
  (s.setCold s.writeIdx {s.getWriteBuffer with params := p}).publishParams

end Shared

-- A thread inside updateParameters(p): it stores p in the dark buffer's params
-- and runs publishParams. The names say which access comes next; an emptied
-- list of fields means the load that follows the loop.
inductive Writer (F : Type) where
  | fill (p : RiskParameters F) (dark : Fin 2) (rest : List Param)
  | build (p : RiskParameters F) (dark : Fin 2) (rest : List Limit)
  | darkStore (p : RiskParameters F) (dark : Fin 2) (v : BitVec 64)
  | openLoad (p : RiskParameters F) (dark : Fin 2)
  | openStore (p : RiskParameters F) (dark : Fin 2) (v : BitVec 64)
  | copy (p : RiskParameters F) (dark : Fin 2) (rest : List Limit)
  | closeStore (p : RiskParameters F) (v : BitVec 64)
  | swapLoad (p : RiskParameters F)
  | swapStore (p : RiskParameters F) (i : Fin 2)
  | flipLoad (p : RiskParameters F)
  | flipStore (p : RiskParameters F) (i : Fin 2)
  | backLoad (p : RiskParameters F)
  | back (p : RiskParameters F) (next : Fin 2) (rest : List Limit)

-- A thread inside readHotParamsOptimistic, with a func that reads the fields of
-- `order`: the version load, the reads, the second load, the read after the loop.
inductive HotReader where
  | first (order : List Limit) (retry : Nat)
  | copy (order : List Limit) (retry : Nat) (v : BitVec 64) (rest : List Limit) (got : List HotRead)
  | anyway (order : List Limit) (rest : List Limit) (got : List HotRead)
  | done (order : List Limit) (v : BitVec 64) (got : List HotRead)

inductive ColdReader (F : Type) where
  | load (order : List ColdField)
  | copy (buffer : Fin 2) (rest : List ColdField) (got : List (ColdRead F))

inductive Local (F : Type) where
  | idle
  | writer (w : Writer F)
  | hot (r : HotReader)
  | cold (r : ColdReader F)

structure State (Tid F : Type) where
  shared : Shared F
  threads : Tid → Local F

inductive Call (F : Type) where
  | update (p : RiskParameters F)
  | readHot (order : List Limit)
  | readCold (order : List ColdField)

inductive Event (Tid F : Type) where
  | call (t : Tid) (op : Call F)
  | turn (t : Tid) (at_ : Local F)

section Move
variable {Tid F : Type} [DecidableEq Tid]

def State.move (s : State Tid F) (t : Tid) (shared : Shared F) (l : Local F) : State Tid F :=
  ⟨shared,Function.update s.threads t l⟩

@[simp] theorem move_shared (s : State Tid F) (t : Tid) (shared : Shared F) (l : Local F) :
    (s.move t shared l).shared = shared := rfl
@[simp] theorem move_self (s : State Tid F) (t : Tid) (shared : Shared F) (l : Local F) :
    (s.move t shared l).threads t = l := by simp [State.move]
theorem move_other (s : State Tid F) {t u : Tid} (shared : Shared F) (l : Local F) (other : u ≠ t) :
    (s.move t shared l).threads u = s.threads u := by simp [State.move,other]

end Move

section Steps
variable {Tid F : Type} [Double F]

def maxRetries : Nat := 100

def again (order : List Limit) (retry : Nat) : HotReader :=
  if retry+1 < maxRetries then .first order (retry+1) else .anyway order order []

def writerTurn (s : Shared F) : Writer F → Shared F × Local F
  | .fill p dark (k::rest) => (s.setParam dark k (p k),.writer (.fill p dark rest))
  | .fill p _ [] => (s,.writer (.build p s.writeIdx Limit.all))
  | .build p dark (l::rest) => (s.setColdHot dark l (convert (s.cold dark).params l),.writer (.build p dark rest))
  | .build p dark [] => (s,.writer (.darkStore p dark s.version))
  | .darkStore p dark v => (s.setColdVersion dark (v+1),.writer (.openLoad p dark))
  | .openLoad p dark => (s,.writer (.openStore p dark s.version))
  | .openStore p dark v => ({s with version := v+1},.writer (.copy p dark Limit.all))
  | .copy p dark (l::rest) => (s.setHot l ((s.cold dark).hot l),.writer (.copy p dark rest))
  | .copy p _ [] => (s,.writer (.closeStore p s.version))
  | .closeStore p v => ({s with version := v+1},.writer (.swapLoad p))
  | .swapLoad p => (s,.writer (.swapStore p s.writeIdx))
  | .swapStore p i => ({s with active := i},.writer (.flipLoad p))
  | .flipLoad p => (s,.writer (.flipStore p s.writeIdx))
  | .flipStore p i => ({s with writeIdx := if i = 0 then 1 else 0},.writer (.backLoad p))
  | .backLoad p => (s,.writer (.back p s.writeIdx Limit.all))
  | .back p next (l::rest) => (s.setColdHot next l (s.hot l),.writer (.back p next rest))
  | .back _ _ [] => (s,.idle)

def hotTurn (s : Shared F) : HotReader → Local F
  | .first order retry =>
    if s.version &&& 1 = 0 then .hot (.copy order retry s.version order []) else .hot (again order retry)
  | .copy order retry v (l::rest) got => .hot (.copy order retry v rest (got++[⟨l,s.hot l⟩]))
  | .copy order retry v [] got => if v = s.version then .hot (.done order v got) else .hot (again order retry)
  | .anyway order (l::rest) got => .hot (.anyway order rest (got++[⟨l,s.hot l⟩]))
  | .anyway _ [] _ => .idle
  | .done _ _ _ => .idle

def coldTurn (s : Shared F) : ColdReader F → Local F
  | .load order => .cold (.copy s.active order [])
  | .copy buffer (f::rest) got => .cold (.copy buffer rest (got++[⟨f,(s.cold buffer).get f⟩]))
  | .copy _ [] _ => .idle

def entry (s : Shared F) : Call F → Local F
  | .update p => .writer (.fill p s.writeIdx Param.all)
  | .readHot order => .hot (.first order 0)
  | .readCold order => .cold (.load order)

def turn (s : Shared F) : Local F → Option (Shared F × Local F)
  | .idle => none
  | .writer w => some (writerTurn s w)
  | .hot r => some (s,hotTurn s r)
  | .cold r => some (s,coldTurn s r)

variable [DecidableEq Tid]

inductive Step : State Tid F → Event Tid F → State Tid F → Prop where
  | call {t : Tid} {op : Call F} (free : s.threads t = .idle) :
      Step s (.call t op) (s.move t s.shared (entry s.shared op))
  | turn {t : Tid} {l : Local F} {shared : Shared F} {l' : Local F} (at_ : s.threads t = l) (moved : turn s.shared l = some (shared,l')) :
      Step s (.turn t l) (s.move t shared l')

def advance (s : State Tid F) : Tid × Option (Call F) → Option (Event Tid F × State Tid F)
  | (t,some op) =>
    match s.threads t with
    | .idle => some (.call t op,s.move t s.shared (entry s.shared op))
    | _ => none
  | (t,none) => (turn s.shared (s.threads t)).map fun (shared,l) => (.turn t (s.threads t),s.move t shared l)

theorem advance_sound (s : State Tid F) (choice : Tid × Option (Call F)) (e : Event Tid F) (s' : State Tid F)
    (checked : advance s choice = some (e,s')) : Step s e s' := by
  obtain ⟨t,_ | op⟩ := choice
  · obtain ⟨⟨shared,l⟩,moved,same⟩ := Option.map_eq_some_iff.mp checked
    cases same
    exact .turn rfl moved
  · simp only [advance] at checked
    split at checked
    · cases checked; exact .call ‹_›
    · cases checked

-- The constructor's state: buffer 0 is active, buffer 1 is dark; the contents
-- of hot_params_ and of the buffers are whatever the constructor put there.
def initial (hot : HotParams) (cold : Fin 2 → ColdParams F) : State Tid F :=
  ⟨⟨hot,0,cold,0,1⟩,fun _ => .idle⟩

end Steps
end Chronos.RiskEngine
