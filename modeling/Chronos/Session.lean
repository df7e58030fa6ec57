import Chronos.ConfiguredGrids
import Chronos.EventPipeline
import Chronos.Lifecycle

namespace Chronos.Session

open EventPipeline (Action Feed)
open Lifecycle (Move walk)
open Yaml (Node Scalars)

-- What the program sets up, starts and stops; the replayer runs on the main thread.
inductive Component where
  | logWriter
  | zmqBridge
  | engine
  | gateway
  | userStream
  | mdGateway
  | mdBridge
  | replayer
  deriving DecidableEq

def needs : Component → List Component
  | .gateway => [.engine,.zmqBridge]
  | .userStream => [.gateway]
  | .mdBridge | .replayer => [.engine,.zmqBridge,.logWriter]
  | .logWriter | .zmqBridge | .engine | .mdGateway => []

-- The statements of main, runFileReplay and runLive that concern them. The log writer
-- and the ZMQ bridge have a set-up block, which may leave them uninitialised.
-- `configure` stands for the risk parameters, the capital and the strategies, `stop
-- mdBridge` for the join, `streamEnded` for a user stream found not running at the
-- shutdown, and `terminate` for the end by an exception that nobody catches.
inductive Op where
  | setUp (c : Component) (done : Bool)
  | start (c : Component)
  | stop (c : Component)
  | streamEnded
  | configure
  | subscribe (symbol : String)
  | replay
  | wait
  | clearRunning
  | flush
  | exit (code : Nat)
  | terminate
  deriving DecidableEq

def Op.moves : Op → List (Move Component)
  | .setUp c _ | .start c => [.up c]
  | .stop c => [.down c]
  | .streamEnded => [.down .userStream]
  | .replay => [.up .replayer,.down .replayer]
  | _ => []

-- What the rest of the program answers: the build, openLogDirectory, create_directories,
-- the two initialize calls, createGatewayV2, and the user stream's start and isRunning.
structure Outcomes where
  liveBuilt : Bool
  tickLogOpen : Bool
  directoriesMade : Bool
  logOpens : Bool
  bridgeOpens : Bool
  gatewayCreated : Bool
  streamStarts : Bool
  streamRuns : Bool
  deriving DecidableEq

section Scripts
variable {F : Type} [Double F]

def shutDown : List Op := [.stop .gateway,.stop .engine,.stop .zmqBridge,.flush,.stop .logWriter,.exit 0]

-- Both modes begin alike. An empty output_dir leaves the log writer alone; what its
-- initialize returns is not looked at, and a bridge that fails to open is gone on with.
def prepare (o : Outcomes) (cfg : AppConfig F) (rest : List Op) : List Op :=
  if cfg.logCfg.outputDir ≠ "" ∧ o.directoriesMade = false then [.terminate]
  else [.setUp .logWriter (cfg.logCfg.outputDir ≠ "" && o.logOpens),.setUp .zmqBridge o.bridgeOpens]++
    match registerStrategies cfg with
    | .error _ => [.terminate]
    | .ok _ => .configure::rest

def runFileReplay (o : Outcomes) (cfg : AppConfig F) : List Op :=
  if o.tickLogOpen then prepare o cfg ([.start .engine,.start .gateway,.replay]++shutDown) else [.exit 1]

def useRealExecution (cfg : AppConfig F) : Bool := !cfg.forceSimulate && cfg.exchangeApiKey ≠ "" && cfg.exchangeApiSecret ≠ ""

def subscriptions (cfg : AppConfig F) : List Op :=
  if cfg.exchangeSymbols = [] then [.subscribe "btcusdt"] else cfg.exchangeSymbols.map .subscribe

def runLive (o : Outcomes) (cfg : AppConfig F) : List Op :=
  if !o.liveBuilt then [.exit 1]
  else prepare o cfg <|
    if cfg.exchangeUrl = "" then [.exit 1]
    else if !o.gatewayCreated then [.exit 1]
    else
      let stream := useRealExecution cfg && o.streamStarts
      subscriptions cfg++[.start .engine,.start .gateway]++(if stream then [.start .userStream] else [])++
        [.start .mdGateway,.start .mdBridge,.wait,.clearRunning,.stop .mdBridge,.stop .mdGateway]++
        (if stream then [if o.streamRuns then .stop .userStream else .streamEnded] else [])++shutDown

def main (y : Scalars F) (getenv : String → Option String) (file : String → Option Node) (o : Outcomes) (flags : Flags)
    (arguments : List String) : List Op :=
  let (parsed,cfg) := parseArgs flags arguments ({} : AppConfig F)
  if !parsed then [.exit 1]
  else
    match loadConfig y getenv (file cfg.configPath) cfg with
    | .error _ => [.terminate]
    | .ok (false,_) => [.exit 1]
    | .ok (true,cfg) =>
      if cfg.liveMode then runLive o cfg
      else if cfg.logDir = "" then [.exit 1]
      else runFileReplay o cfg

end Scripts

variable {T U : Type}

inductive Bridge (T : Type) where
  | off
  | sleeping
  | polling
  | handling (v : T) (rest : List Action)
  deriving DecidableEq

-- Main has executed `past` and has `script` before it; `turn` says that the replay
-- loop is inside advanceToNextEvent, which may run the tick callback any number of
-- times. Any number of fill callbacks may be at work.
structure State (T U : Type) where
  past : List Op
  script : List Op
  running : Bool
  turn : Bool
  callback : Option (T × List Action)
  bridge : Bridge T
  fills : List (U × List Action)

def initial (script : List Op) : State T U := ⟨[],script,true,false,none,.off,[]⟩

inductive Caller where
  | replayer
  | mdBridge
  | gateway
  deriving DecidableEq

inductive Event (T U : Type) where
  | did (op : Op)
  | signal
  | turn
  | advanced
  | tick (v : T)
  | tested (running : Bool)
  | checked (running : Bool)
  | popped (v : Option T)
  | filled (w : U)
  | call (caller : Caller) (a : Action)
  | finished (caller : Caller)
  deriving DecidableEq

-- A loop is left at its head, and a join waits for the thread.
def Ready (s : State T U) : Op → Prop
  | .replay => s.turn = false ∧ s.callback = none
  | .wait => s.running = false
  | .stop .mdBridge => s.bridge = .off
  | _ => True

def State.execute (s : State T U) (op : Op) (rest : List Op) : State T U := {s with
  past := s.past++[op]
  script := rest
  running := if op = .clearRunning then false else s.running
  bridge := if op = .start .mdBridge then .sleeping else s.bridge}

def upAfter (past : List Op) : List Component := (walk needs [] (past.flatMap Op.moves)).getD []

inductive Step : State T U → Event T U → State T U → Prop where
  | signal {s : State T U} : Step s .signal {s with running := false}
  | op {s : State T U} {op : Op} {rest : List Op} (next : s.script = op::rest) (ready : Ready s op) :
      Step s (.did op) (s.execute op rest)
  | turn {s : State T U} {rest : List Op} (loop : s.script = .replay::rest) (head : s.turn = false) (on : s.running = true) :
      Step s .turn {s with turn := true}
  | advanced {s : State T U} (within : s.turn = true) (free : s.callback = none) : Step s .advanced {s with turn := false}
  | tick {s : State T U} {v : T} (within : s.turn = true) (free : s.callback = none) :
      Step s (.tick v) {s with callback := some (v,Feed.tickCallback.body)}
  | test {s : State T U} {v : T} {rest : List Action} (next : s.callback = some (v,.unlessStopped::rest)) :
      Step s (.tested s.running) {s with callback := if s.running then some (v,rest) else none}
  | act {s : State T U} {v : T} {a : Action} {rest : List Action} (next : s.callback = some (v,a::rest))
      (other : a ≠ .unlessStopped) : Step s (.call .replayer a) {s with callback := some (v,rest)}
  | done {s : State T U} {v : T} (next : s.callback = some (v,[])) : Step s (.finished .replayer) {s with callback := none}
  | check {s : State T U} (sleeping : s.bridge = .sleeping) :
      Step s (.checked s.running) {s with bridge := if s.running then .polling else .off}
  | got {s : State T U} {v : T} (polling : s.bridge = .polling) :
      Step s (.popped (some v)) {s with bridge := .handling v Feed.mdBridge.body}
  | none {s : State T U} (polling : s.bridge = .polling) : Step s (.popped none) {s with bridge := .sleeping}
  | bridge {s : State T U} {v : T} {a : Action} {rest : List Action} (next : s.bridge = .handling v (a::rest)) :
      Step s (.call .mdBridge a) {s with bridge := .handling v rest}
  | round {s : State T U} {v : T} (next : s.bridge = .handling v []) : Step s (.finished .mdBridge) {s with bridge := .polling}
  | fill {s : State T U} {w : U} : Step s (.filled w) {s with fills := s.fills++[(w,Feed.fillCb.body)]}
  | forward {s : State T U} {w : U} {a : Action} {rest : List Action} {front back : List (U × List Action)}
      (next : s.fills = front++(w,a::rest)::back) : Step s (.call .gateway a) {s with fills := front++(w,rest)::back}
  | forwarded {s : State T U} {w : U} {front back : List (U × List Action)} (next : s.fills = front++(w,[])::back) :
      Step s (.finished .gateway) {s with fills := front++back}

inductive Choice (T U : Type) where
  | signal
  | main
  | turn
  | replay (v : Option T)
  | callback
  | bridge (v : Option T)
  | fill (w : U)
  | forward (i : Nat)
  deriving DecidableEq

instance [DecidableEq T] (s : State T U) (op : Op) : Decidable (Ready s op) := by
  unfold Ready
  split <;> infer_instance

def advance [DecidableEq T] (s : State T U) : Choice T U → Option (Event T U × State T U)
  | .signal => some (.signal,{s with running := false})
  | .main =>
    match s.script with
    | op::rest => if Ready s op then some (.did op,s.execute op rest) else none
    | [] => none
  | .turn =>
    match s.script,s.turn,s.running with
    | .replay::_,false,true => some (.turn,{s with turn := true})
    | _,_,_ => none
  | .replay v =>
    match s.turn,s.callback,v with
    | true,none,some v => some (.tick v,{s with callback := some (v,Feed.tickCallback.body)})
    | true,none,none => some (.advanced,{s with turn := false})
    | _,_,_ => none
  | .callback =>
    match s.callback with
    | some (v,.unlessStopped::rest) => some (.tested s.running,{s with callback := if s.running then some (v,rest) else none})
    | some (v,.push::rest) => some (.call .replayer .push,{s with callback := some (v,rest)})
    | some (v,.publish::rest) => some (.call .replayer .publish,{s with callback := some (v,rest)})
    | some (v,.log::rest) => some (.call .replayer .log,{s with callback := some (v,rest)})
    | some (_,[]) => some (.finished .replayer,{s with callback := none})
    | none => none
  | .bridge v =>
    match s.bridge,v with
    | .off,_ => none
    | .sleeping,_ => some (.checked s.running,{s with bridge := if s.running then .polling else .off})
    | .polling,some v => some (.popped (some v),{s with bridge := .handling v Feed.mdBridge.body})
    | .polling,none => some (.popped none,{s with bridge := .sleeping})
    | .handling v (a::rest),_ => some (.call .mdBridge a,{s with bridge := .handling v rest})
    | .handling _ [],_ => some (.finished .mdBridge,{s with bridge := .polling})
  | .fill w => some (.filled w,{s with fills := s.fills++[(w,Feed.fillCb.body)]})
  | .forward i =>
    match s.fills.drop i with
    | (w,a::rest)::back => some (.call .gateway a,{s with fills := s.fills.take i++(w,rest)::back})
    | (_,[])::back => some (.finished .gateway,{s with fills := s.fills.take i++back})
    | [] => none

theorem advance_sound [DecidableEq T] (s : State T U) (choice : Choice T U) (e : Event T U) (s' : State T U)
    (moved : advance s choice = some (e,s')) : Step s e s' := by
  cases choice with
  | signal => cases moved; exact .signal
  | main =>
    simp only [advance] at moved
    split at moved
    · split at moved
      · cases moved; exact .op ‹_› ‹_›
      · cases moved
    · cases moved
  | turn =>
    simp only [advance] at moved
    split at moved
    · cases moved; exact .turn ‹_› ‹_› ‹_›
    · cases moved
  | replay v =>
    simp only [advance] at moved
    split at moved
    · cases moved; exact .tick ‹_› ‹_›
    · cases moved; exact .advanced ‹_› ‹_›
    · cases moved
  | callback =>
    simp only [advance] at moved
    split at moved <;> cases moved
    · exact .test ‹_›
    · exact .act ‹_› (by decide)
    · exact .act ‹_› (by decide)
    · exact .act ‹_› (by decide)
    · exact .done ‹_›
  | bridge v =>
    simp only [advance] at moved
    split at moved <;> cases moved
    · exact .check ‹_›
    · exact .got ‹_›
    · exact .none ‹_›
    · exact .bridge ‹_›
    · exact .round ‹_›
  | fill w => cases moved; exact .fill
  | forward i =>
    have whole := (List.take_append_drop i s.fills).symm
    simp only [advance] at moved
    split at moved <;> cases moved
    · rename_i picked
      rw [picked] at whole
      exact .forward whole
    · rename_i picked
      rw [picked] at whole
      exact .forwarded whole

def ops (es : List (Event T U)) : List Op :=
  es.filterMap fun
    | .did op => some op
    | _ => none

-- A log statement asks isRunning first.
def target : Action → Option Component
  | .push => some .engine
  | .publish => some .zmqBridge
  | .log => some .logWriter
  | .unlessStopped => none

def begun (es : List (Event T U)) : Nat := es.countP fun | .filled _ => true | _ => false
def returned (es : List (Event T U)) : Nat := es.countP fun | .finished .gateway => true | _ => false

-- What main relies on OrderGateway for, whose threads are not under src: its callback
-- is called between start and stop only, and stop waits for the calls at work.
def KeepsTime (earlier : List (Event T U)) : Event T U → Prop
  | .filled _ => .gateway ∈ upAfter (ops earlier)
  | .did (.stop .gateway) => begun earlier = returned earlier
  | _ => True

def GatewayJoins (es : List (Event T U)) : Prop := Each KeepsTime es

instance (earlier : List (Event T U)) (e : Event T U) : Decidable (KeepsTime earlier e) := by
  unfold KeepsTime
  split <;> infer_instance

instance (es : List (Event T U)) : Decidable (GatewayJoins es) := inferInstanceAs (Decidable (Each KeepsTime es))

-- Threads run as long as main lets them, and only where their component is at work.
structure Inv (whole : List Op) (es : List (Event T U)) (s : State T U) : Prop where
  whole : s.past++s.script = whole
  past : ops es = s.past
  loop : s.turn = true ∨ s.callback ≠ none → ∃ rest, s.script = .replay::rest
  bridge : s.bridge ≠ .off → .mdBridge ∈ upAfter s.past
  fill : s.fills ≠ [] → .gateway ∈ upAfter s.past
  open_ : begun es = returned es+s.fills.length
  forwards : ∀ w rest, (w,rest) ∈ s.fills → rest ⊆ Feed.fillCb.body

section Runs
variable {whole : List Op} {es : List (Event T U)} {e : Event T U} {s s' : State T U}

theorem ops_snoc : ops (es++[e]) = ops es++ops [e] := List.filterMap_append

theorem begun_snoc : begun (es++[e]) = begun es+begun [e] := List.countP_append

theorem returned_snoc : returned (es++[e]) = returned es+returned [e] := List.countP_append

theorem walk_past {past script : List Op} {last : List Component} (walks : walk needs [] ((past++script).flatMap Op.moves) = some last) :
    walk needs [] (past.flatMap Op.moves) = some (upAfter past) ∧ walk needs (upAfter past) (script.flatMap Op.moves) = some last := by
  rw [List.flatMap_append] at walks
  obtain ⟨middle,front,rest⟩ := Lifecycle.walk_prefix walks
  rw [upAfter,front]
  exact ⟨rfl,rest⟩

theorem up_snoc {past rest : List Op} {op : Op} {last : List Component}
    (walks : walk needs [] ((past++op::rest).flatMap Op.moves) = some last) :
    walk needs (upAfter past) op.moves = some (upAfter (past++[op])) := by
  have front := (walk_past walks).1
  have again : walk needs [] (((past++[op])++rest).flatMap Op.moves) = some last := by simpa using walks
  have next := walk_past again
  rw [List.flatMap_append,Lifecycle.walk_append,front] at next
  simpa using next.1

theorem stop_of_down {op : Op} {c : Component} (down : .down c ∈ op.moves) (other : c ≠ .replayer) (stays : c ≠ .userStream) :
    op = .stop c := by
  cases op <;> simp_all [Op.moves]

theorem Inv.frame (inv : Inv whole es s) (quiet : ops [e] = [] ∧ begun [e] = 0 ∧ returned [e] = 0) (past : s'.past = s.past)
    (script : s'.script = s.script) (loop : s'.turn = true ∨ s'.callback ≠ none → ∃ rest, s.script = .replay::rest)
    (bridge : s'.bridge ≠ .off → s.bridge ≠ .off) (fill : s'.fills = s.fills) : Inv whole (es++[e]) s' where
  whole := by rw [past,script]; exact inv.whole
  past := by rw [ops_snoc,quiet.1,List.append_nil,past]; exact inv.past
  loop working := by rw [script]; exact loop working
  bridge on := by rw [past]; exact inv.bridge (bridge on)
  fill on := by rw [past]; exact inv.fill (fill ▸ on)
  open_ := by rw [begun_snoc,returned_snoc,quiet.2.1,quiet.2.2,fill]; exact inv.open_
  forwards w rest held := inv.forwards w rest (fill ▸ held)

-- Main's own steps: nobody's component is taken away while they are at work.
theorem Inv.execute {op : Op} {rest : List Op} {last : List Component} (inv : Inv whole es s)
    (walks : walk needs [] (whole.flatMap Op.moves) = some last) (keeps : KeepsTime es (.did op)) (next : s.script = op::rest)
    (ready : Ready s op) : Inv whole (es++[.did op]) (s.execute op rest) := by
  have shape := inv.whole
  rw [next] at shape
  have moved := up_snoc (shape ▸ walks)
  refine ⟨by rw [← shape]; simp [State.execute],?_,fun working => ?_,fun on => ?_,fun on => ?_,?_,inv.forwards⟩
  · rw [ops_snoc,inv.past]
    rfl
  · obtain ⟨rest',head⟩ := inv.loop working
    cases next.symm.trans head
    rcases working with passed | busy
    · exact absurd passed (by simp [State.execute,ready.1])
    · exact absurd ready.2 busy
  · by_cases starts : op = .start .mdBridge
    · subst starts
      obtain ⟨up',up,same⟩ := Option.bind_eq_some_iff.mp moved
      obtain ⟨_,here⟩ := Option.ite_none_right_eq_some.mp up
      have all : upAfter (s.past++[.start .mdBridge]) = .mdBridge::upAfter s.past :=
        (Option.some.inj same).symm.trans (Option.some.inj here).symm
      exact all ▸ List.mem_cons_self
    · have before : s.bridge ≠ .off := by simpa [State.execute,starts] using on
      refine Lifecycle.walk_keeps moved (fun down => ?_) (inv.bridge before)
      cases stop_of_down down (by decide) (by decide)
      exact before ready
  · refine Lifecycle.walk_keeps moved (fun down => ?_) (inv.fill on)
    cases stop_of_down down (by decide) (by decide)
    -- the gateway has been waited for
    have none : s.fills.length = 0 := Nat.left_eq_add.mp ((show begun es = returned es from keeps).symm.trans inv.open_)
    exact on (List.length_eq_zero_iff.mp none)
  · rw [begun_snoc,returned_snoc]
    exact inv.open_

theorem Inv.step {last : List Component} (inv : Inv whole es s) (walks : walk needs [] (whole.flatMap Op.moves) = some last)
    (keeps : KeepsTime es e) (step : Step s e s') : Inv whole (es++[e]) s' := by
  have loop := inv.loop
  cases step with
  | op next ready => exact inv.execute walks keeps next ready
  | signal => exact inv.frame ⟨rfl,rfl,rfl⟩ rfl rfl loop id rfl
  | turn head free on => exact inv.frame ⟨rfl,rfl,rfl⟩ rfl rfl (fun _ => ⟨_,head⟩) id rfl
  | advanced within | tick within => exact inv.frame ⟨rfl,rfl,rfl⟩ rfl rfl (fun _ => loop (.inl within)) id rfl
  | test next | act next | done next =>
    exact inv.frame ⟨rfl,rfl,rfl⟩ rfl rfl (fun _ => loop (.inr (by simp [next]))) id rfl
  | check sleeping | got sleeping | none sleeping | bridge sleeping | round sleeping =>
    exact inv.frame ⟨rfl,rfl,rfl⟩ rfl rfl loop (fun _ => by simp [sleeping]) rfl
  | fill =>
    refine ⟨inv.whole,?_,loop,inv.bridge,fun _ => inv.past ▸ keeps,?_,fun w rest held => ?_⟩
    · rw [ops_snoc]; exact (List.append_nil _).trans inv.past
    · rw [begun_snoc,returned_snoc,inv.open_,List.length_append]; rfl
    · rcases List.mem_append.mp held with old | new
      · exact inv.forwards w rest old
      · cases List.mem_singleton.mp new
        exact List.Subset.refl _
  | forward next =>
    refine ⟨inv.whole,?_,loop,inv.bridge,fun _ => inv.fill (by simp [next]),?_,fun w rest held => ?_⟩
    · rw [ops_snoc]; exact (List.append_nil _).trans inv.past
    · rw [begun_snoc,returned_snoc,inv.open_,next,List.length_append,List.length_append]; rfl
    · simp only [List.mem_append,List.mem_cons] at held
      rcases held with old | new | old
      · exact inv.forwards w rest (by simp [next,old])
      · cases new
        exact fun a member => inv.forwards _ _ (next ▸ List.mem_append_right _ List.mem_cons_self) (List.mem_cons_of_mem _ member)
      · exact inv.forwards w rest (by simp [next,old])
  | forwarded next =>
    rename_i w front back
    refine ⟨inv.whole,?_,loop,inv.bridge,fun _ => inv.fill (by simp [next]),?_,fun w rest held => inv.forwards w rest ?_⟩
    · rw [ops_snoc]; exact (List.append_nil _).trans inv.past
    · have one : returned [(.finished .gateway : Event T U)] = 1 := rfl
      have none : begun [(.finished .gateway : Event T U)] = 0 := rfl
      rw [begun_snoc,returned_snoc,one,none,inv.open_,next,List.length_append,List.length_append,List.length_cons]
      omega
    · rw [next]
      exact (List.mem_append.mp held).elim (List.mem_append_left _) fun old =>
        List.mem_append_right _ (List.mem_cons_of_mem _ old)

theorem Inv.lands {last : List Component} {caller : Caller} {a : Action} {c : Component} (inv : Inv whole es s)
    (walks : walk needs [] (whole.flatMap Op.moves) = some last) (step : Step s (.call caller a) s') (reaches : target a = some c) :
    c ∈ upAfter (ops es) := by
  rw [inv.past]
  rw [← inv.whole] at walks
  have closed : Lifecycle.Closed needs (upAfter s.past) := Lifecycle.walk_closed (fun _ none => by cases none) (walk_past walks).1
  cases step with
  | act next other =>
    obtain ⟨rest,head⟩ := inv.loop (.inr (by simp [next]))
    rw [head] at walks
    have used := Lifecycle.up_uses (c:=Component.replayer) (walk_past walks).2
    cases a <;> cases reaches <;> exact used _ (by decide)
  | bridge next =>
    have used := closed _ (inv.bridge (by simp [next]))
    cases a <;> cases reaches <;> exact used _ (by decide)
  | forward next =>
    have used := closed _ (inv.fill (by simp [next]))
    have member := inv.forwards _ _ (next ▸ List.mem_append_right _ List.mem_cons_self) List.mem_cons_self
    cases a <;> simp [Feed.body] at member <;> cases reaches <;> exact used _ (by decide)

theorem runs_inv {last : List Component} (walks : walk needs [] (whole.flatMap Op.moves) = some last) (joins : GatewayJoins es)
    (path : Runs Step (initial whole) es s) : Inv whole es s :=
  path.preserves_admissible (Inv whole) GatewayJoins (fun _ _ => Each.front)
    (fun _ _ _ _ joins inv step => inv.step walks (Each.snoc.mp joins).2 step)
    ⟨rfl,rfl,by simp [initial],by simp [initial],by simp [initial],rfl,by simp [initial]⟩ joins

end Runs

structure Proper (o : Outcomes) (up : List Component) (whole : List Op) (last : List Component) (front : List Op) (final : Op) : Prop where
  walks : walk needs up (whole.flatMap Op.moves) = some last
  ends : whole = front++[final]
  left : ∀ c ∈ last, c = .logWriter ∨ c = .zmqBridge
  final : (final = .exit 0 ∧ last = []) ∨ ((final = .exit 1 ∨ final = .terminate) ∧ ∀ c, .start c ∉ whole)
  bridge : ∀ op ∈ whole, .up .zmqBridge ∈ op.moves → op = .setUp .zmqBridge o.bridgeOpens

section Scripts
variable {F : Type} [Double F] {o : Outcomes} {up : List Component}

theorem failed_proper {final : Op} (fails : final = .exit 1 ∨ final = .terminate) (left : ∀ c ∈ up, c = .logWriter ∨ c = .zmqBridge) :
    Proper o up [final] up [] final := by
  refine ⟨?_,rfl,left,.inr ⟨fails,?_⟩,?_⟩ <;> rcases fails with rfl | rfl <;> simp [Op.moves,walk]

theorem Proper.after {pre rest front : List Op} {up' last : List Component} {final : Op} (proper : Proper o up' rest last front final)
    (moved : walk needs up (pre.flatMap Op.moves) = some up') (quiet : ∀ c, .start c ∉ pre)
    (flag : ∀ op ∈ pre, .up .zmqBridge ∈ op.moves → op = .setUp .zmqBridge o.bridgeOpens) : Proper o up (pre++rest) last (pre++front) final where
  walks := by rw [List.flatMap_append,Lifecycle.walk_append,moved]; exact proper.walks
  ends := by rw [proper.ends,List.append_assoc]
  left := proper.left
  final := proper.final.imp_right fun failed => ⟨failed.1,fun c start => (List.mem_append.mp start).elim (quiet c) (failed.2 c)⟩
  bridge op placed := (List.mem_append.mp placed).elim (flag op) (proper.bridge op)

theorem prepare_proper {cfg : AppConfig F} {rest : List Op}
    (proper : ∃ last front final, Proper o [.zmqBridge,.logWriter] rest last front final) :
    ∃ last front final, Proper o [] (prepare o cfg rest) last front final := by
  unfold prepare
  split
  · exact ⟨_,_,_,failed_proper (.inr rfl) (by simp)⟩
  · have blocks : ∃ last front final, Proper o [.zmqBridge,.logWriter]
        (match registerStrategies cfg with | .error _ => [.terminate] | .ok _ => .configure::rest) last front final := by
      split
      · exact ⟨_,_,_,failed_proper (.inr rfl) (by simp)⟩
      · obtain ⟨last,front,final,proper⟩ := proper
        have configured := proper.after (show walk needs [.zmqBridge,.logWriter] ([.configure].flatMap Op.moves) = _ from rfl)
          (by simp) (by simp [Op.moves])
        exact ⟨_,_,_,configured⟩
    obtain ⟨last,front,final,proper⟩ := blocks
    exact ⟨_,_,_,proper.after rfl (by simp) (by simp [Op.moves])⟩

theorem proper_shutDown {ops : List Op} (walks : walk needs up ((ops++shutDown).flatMap Op.moves) = some [])
    (quiet : .up .zmqBridge ∉ ops.flatMap Op.moves) : ∃ last front final, Proper o up (ops++shutDown) last front final := by
  refine ⟨[],ops++shutDown.dropLast,.exit 0,walks,by rw [List.append_assoc]; rfl,by simp,.inl ⟨rfl,rfl⟩,fun op placed opens => ?_⟩
  rcases List.mem_append.mp placed with here | later
  · exact absurd (List.mem_flatMap.mpr ⟨op,here,opens⟩) quiet
  · have none : .up .zmqBridge ∉ shutDown.flatMap Op.moves := by decide
    exact absurd (List.mem_flatMap.mpr ⟨op,later,opens⟩) none

theorem runFileReplay_proper (o : Outcomes) (cfg : AppConfig F) :
    ∃ last front final, Proper o [] (runFileReplay o cfg) last front final := by
  unfold runFileReplay
  split
  · exact prepare_proper (proper_shutDown (by decide) (by decide))
  · exact ⟨_,_,_,failed_proper (.inl rfl) (by simp)⟩

theorem subscriptions_moves (cfg : AppConfig F) : (subscriptions cfg).flatMap Op.moves = [] := by
  unfold subscriptions
  split
  · rfl
  · simp [Op.moves]

theorem runLive_proper (o : Outcomes) (cfg : AppConfig F) : ∃ last front final, Proper o [] (runLive o cfg) last front final := by
  unfold runLive
  split
  · exact ⟨_,_,_,failed_proper (.inl rfl) (by simp)⟩
  · refine prepare_proper ?_
    split
    · exact ⟨_,_,_,failed_proper (.inl rfl) (by simp)⟩
    · split
      · exact ⟨_,_,_,failed_proper (.inl rfl) (by simp)⟩
      · refine proper_shutDown ?_ ?_
        all_goals
          simp only [List.flatMap_append,subscriptions_moves]
          cases useRealExecution cfg && o.streamStarts <;> cases o.streamRuns <;> decide

theorem main_proper (y : Scalars F) (getenv : String → Option String) (file : String → Option Node) (o : Outcomes)
    (flags : Flags) (arguments : List String) :
    ∃ last front final, Proper o [] (main y getenv file o flags arguments) last front final := by
  unfold main
  dsimp only
  split
  · exact ⟨_,_,_,failed_proper (.inl rfl) (by simp)⟩
  · split
    · exact ⟨_,_,_,failed_proper (.inr rfl) (by simp)⟩
    · exact ⟨_,_,_,failed_proper (.inl rfl) (by simp)⟩
    · split
      · exact runLive_proper o _
      · split
        · exact ⟨_,_,_,failed_proper (.inl rfl) (by simp)⟩
        · exact runFileReplay_proper o _

end Scripts

structure Quiet (s : State T U) : Prop where
  bridge : s.bridge = .off
  fills : s.fills = []
  callback : s.callback = none

-- No thread calls what is not up: an engine that has not been started, or a log writer
-- or bridge whose set-up is still to come, or one that has been stopped. Publications
-- go to a bridge that failed to open too. Once main is through nobody is at work; a
-- session that ends well has stopped all it started, one that fails has started nothing.
structure Orderly (o : Outcomes) (es : List (Event T U)) (s : State T U) : Prop where
  lands : ∀ earlier caller a later c, es = earlier++.call caller a::later → target a = some c → c ∈ upAfter (ops earlier)
  published : ∀ earlier caller later, es = earlier++.call caller .publish::later → .setUp .zmqBridge o.bridgeOpens ∈ ops earlier
  ended : s.script = [] → Quiet s ∧ ∃ front final, ops es = front++[final] ∧
    ((final = .exit 0 ∧ upAfter (ops es) = []) ∨ ((final = .exit 1 ∨ final = .terminate) ∧ ∀ c, .start c ∉ ops es))

theorem Proper.opened {past script front : List Op} {last : List Component} {final : Op} {o : Outcomes}
    (proper : Proper o [] (past++script) last front final) (up : .zmqBridge ∈ upAfter past) :
    .setUp .zmqBridge o.bridgeOpens ∈ past := by
  rcases Lifecycle.walk_came (walk_past proper.walks).1 up with none | came
  · cases none
  · obtain ⟨op,placed,opens⟩ := List.mem_flatMap.mp came
    exact proper.bridge op (List.mem_append_left _ placed) opens ▸ placed

theorem session_orderly {F T U : Type} [Double F] {y : Scalars F} {getenv : String → Option String} {file : String → Option Node}
    {o : Outcomes} {flags : Flags} {arguments : List String} {es : List (Event T U)} {s : State T U} (joins : GatewayJoins es)
    (path : Runs Step (initial (main y getenv file o flags arguments)) es s) : Orderly o es s := by
  obtain ⟨last,front,final,proper⟩ := main_proper y getenv file o flags arguments
  have lands : ∀ earlier caller a later c, es = earlier++.call caller a::later → target a = some c → c ∈ upAfter (ops earlier) := by
    rintro earlier caller a later c rfl reaches
    obtain ⟨here,next,before,taken,_⟩ := path.split_at
    exact (runs_inv proper.walks (Each.front joins) before).lands proper.walks taken reaches
  have inv := runs_inv proper.walks joins path
  refine ⟨lands,?_,fun through => ?_⟩
  · rintro earlier caller later rfl
    obtain ⟨here,next,before,_⟩ := path.split_at
    have inv := runs_inv proper.walks (Each.front joins) before
    rw [← inv.whole,← inv.past] at proper
    exact proper.opened (lands earlier caller .publish later .zmqBridge rfl rfl)
  · have whole := inv.whole
    rw [through,List.append_nil,← inv.past] at whole
    have up : upAfter (ops es) = last := by rw [upAfter,whole,proper.walks]; rfl
    have idle : .mdBridge ∉ last ∧ .gateway ∉ last := by
      constructor <;> intro member <;> simpa using proper.left _ member
    refine ⟨⟨?_,?_,?_⟩,front,final,whole.trans proper.ends,?_⟩
    · by_contra on
      exact idle.1 (up ▸ inv.past ▸ inv.bridge on)
    · by_contra on
      exact idle.2 (up ▸ inv.past ▸ inv.fill on)
    · by_contra on
      obtain ⟨rest,head⟩ := inv.loop (.inr on)
      rw [through] at head
      cases head
    · rw [up,whole]
      exact proper.final

def oneTick : List (Choice Nat Nat) := List.flatten [
  List.replicate 5 .main,[.turn,.replay (some 7)],List.replicate 5 .callback,[.replay none],
  .fill 9::List.replicate 3 (.forward 0),List.replicate 7 .main]

def noBridge : Outcomes := {
  liveBuilt := false, tickLogOpen := true, directoriesMade := true, logOpens := true, bridgeOpens := false,
  gatewayCreated := false, streamStarts := false, streamRuns := false}

def replayed : List Op := main plain (fun _ => none) (fun _ => some (.map [])) noBridge {replay := "logs",config := "config.yaml"} []

theorem session_orderly_oneTick :
    ∃ follows : (play advance (initial replayed) oneTick).isSome,
      let run := (play advance (initial replayed) oneTick).get follows
      run.2.script = [] ∧ Orderly noBridge run.1 run.2 :=
  ⟨by decide +kernel,by decide +kernel,session_orderly (by decide +kernel) (play_get advance_sound (by decide +kernel))⟩

end Chronos.Session
