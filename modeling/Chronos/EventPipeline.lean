import Chronos.MpmcUnbounded

namespace Chronos.EventPipeline
open MpmcQueue (Capacity Arithmetic Local)

def streamCapacity : Capacity := ⟨10,by decide⟩

-- One stream of events into the engine: a thread that runs the callbacks, one
-- after another, and the engine thread, which pops.
inductive Side where
  | feed
  | engine
  deriving DecidableEq

-- The statements of a callback that concern the stream: the g_running test,
-- engine.pushFill/pushTick, zmq.publishFill/publishTick, and the log line
-- `if (logWriter.isRunning()) logWriter.writeTick(tick)`.
inductive Action where
  | unlessStopped
  | push
  | publish
  | log
  deriving DecidableEq

inductive Feed where
  | fillCb
  | tickCallback
  | mdBridge
  deriving DecidableEq

def Feed.body : Feed → List Action
  | .fillCb => [.push,.publish]
  | .tickCallback => [.unlessStopped,.push,.publish,.log]
  | .mdBridge => [.push,.publish,.log]

structure State (W T : Type) where
  queue : MpmcQueue.State Side W T streamCapacity
  pending : Option (T × List Action)

inductive Event (W T : Type) where
  | delivered (v : T)
  | tested (running : Bool)
  | queue (e : MpmcQueue.Event Side W T)
  | published (v : T)
  | logged (v : T) (running : Bool)
  | finished
  deriving DecidableEq

variable {W T : Type}

def initial (A : Arithmetic W streamCapacity) (junk : Fin streamCapacity.size → T) : State W T where
  queue := MpmcQueue.initial A junk
  pending := none

def Allowed : MpmcQueue.Event Side W T → Bool
  | .call .feed _ | .call .engine (.tryPush _) => false
  | _ => true

section Steps
variable [DecidableEq W]

-- A statement is executed once the call before it has returned; whatever
-- try_push returned is dropped.
inductive Step (A : Arithmetic W streamCapacity) (feed : Feed) : State W T → Event W T → State W T → Prop where
  | deliver {s : State W T} {v : T} (free : s.pending = none) :
      Step A feed s (.delivered v) {s with pending := some (v,feed.body)}
  | test {s : State W T} {v : T} {rest : List Action} {running : Bool} (back : s.queue.threads .feed = .idle)
      (next : s.pending = some (v,.unlessStopped::rest)) :
      Step A feed s (.tested running) {s with pending := if running then some (v,rest) else none}
  | push {s : State W T} {v : T} {rest : List Action} (back : s.queue.threads .feed = .idle)
      (next : s.pending = some (v,.push::rest)) :
      Step A feed s (.queue (.call .feed (.tryPush v))) ⟨s.queue.move .feed (MpmcQueue.entry (.tryPush v)),some (v,rest)⟩
  | publish {s : State W T} {v : T} {rest : List Action} (back : s.queue.threads .feed = .idle)
      (next : s.pending = some (v,.publish::rest)) :
      Step A feed s (.published v) {s with pending := some (v,rest)}
  | log {s : State W T} {v : T} {rest : List Action} {running : Bool} (back : s.queue.threads .feed = .idle)
      (next : s.pending = some (v,.log::rest)) :
      Step A feed s (.logged v running) {s with pending := some (v,rest)}
  | finish {s : State W T} {v : T} (back : s.queue.threads .feed = .idle) (next : s.pending = some (v,[])) :
      Step A feed s .finished {s with pending := none}
  | access {s : State W T} {e : MpmcQueue.Event Side W T} {queue : MpmcQueue.State Side W T streamCapacity}
      (own : Allowed e) (taken : MpmcQueue.Step A s.queue e queue) :
      Step A feed s (.queue e) {s with queue := queue}

inductive Choice (T : Type) where
  | deliver (v : T)
  | act (flag : Bool)
  | access (t : Side) (choice : MpmcQueue.Choice T)
  deriving DecidableEq

def advance (A : Arithmetic W streamCapacity) (feed : Feed) (s : State W T) :
    Choice T → Option (Event W T × State W T)
  | .deliver v =>
    match s.pending with
    | none => some (.delivered v,{s with pending := some (v,feed.body)})
    | some _ => none
  | .act flag =>
    match s.queue.threads .feed,s.pending with
    | .idle,some (v,.unlessStopped::rest) =>
      some (.tested flag,{s with pending := if flag then some (v,rest) else none})
    | .idle,some (v,.push::rest) =>
      some (.queue (.call .feed (.tryPush v)),⟨s.queue.move .feed (MpmcQueue.entry (.tryPush v)),some (v,rest)⟩)
    | .idle,some (v,.publish::rest) => some (.published v,{s with pending := some (v,rest)})
    | .idle,some (v,.log::rest) => some (.logged v flag,{s with pending := some (v,rest)})
    | .idle,some (_,[]) => some (.finished,{s with pending := none})
    | _,_ => none
  | .access t choice =>
    match MpmcQueue.advance A s.queue t choice with
    | some (e,queue) => if Allowed e then some (.queue e,{s with queue := queue}) else none
    | none => none

theorem advance_sound {A : Arithmetic W streamCapacity} {feed : Feed} (s : State W T) (choice : Choice T)
    (e : Event W T) (s' : State W T) (moved : advance A feed s choice = some (e,s')) : Step A feed s e s' := by
  cases choice with
  | deliver v =>
    simp only [advance] at moved
    split at moved
    · cases moved; exact .deliver ‹_›
    · cases moved
  | act flag =>
    simp only [advance] at moved
    split at moved
    · cases moved; exact .test ‹_› ‹_›
    · cases moved; exact .push ‹_› ‹_›
    · cases moved; exact .publish ‹_› ‹_›
    · cases moved; exact .log ‹_› ‹_›
    · cases moved; exact .finish ‹_› ‹_›
    · cases moved
  | access t choice =>
    simp only [advance] at moved
    split at moved
    · split at moved
      · cases moved; exact .access ‹_› (MpmcQueue.advance_sound ‹_›)
      · cases moved
    · cases moved

theorem Step.queue {A : Arithmetic W streamCapacity} {feed : Feed} {s s' : State W T}
    {e : MpmcQueue.Event Side W T} (step : Step A feed s (.queue e) s') : MpmcQueue.Step A s.queue e s'.queue := by
  cases step with
  | push back => exact .call back
  | access _ taken => exact taken

end Steps

def Event.offer : Event W T → Option T
  | .queue (.call .feed (.tryPush v)) => some v
  | _ => none

def Event.accept : Event W T → Option T
  | .queue (.ret .feed (.pushed v _)) => some v
  | _ => none

def Event.refuse : Event W T → Option T
  | .queue (.ret .feed (.full v)) => some v
  | _ => none

def Event.pop : Event W T → Option T
  | .queue (.ret .engine (.popped _ v)) => some v
  | _ => none

def Event.publish : Event W T → Option T
  | .published v => some v
  | _ => none

def Event.log : Event W T → Option T
  | .logged v true => some v
  | _ => none

def offered (es : List (Event W T)) : List T := es.filterMap Event.offer
def accepted (es : List (Event W T)) : List T := es.filterMap Event.accept
def refused (es : List (Event W T)) : List T := es.filterMap Event.refuse
def popped (es : List (Event W T)) : List T := es.filterMap Event.pop
def published (es : List (Event W T)) : List T := es.filterMap Event.publish
def logged (es : List (Event W T)) : List T := es.filterMap Event.log

def occupied (queue : MpmcQueue.State Side (BitVec 64) T streamCapacity) : Nat :=
  (queue.head-queue.tail).toNat+(if (queue.threads .engine).reading.isSome then 1 else 0)

def Crowded (s : State (BitVec 64) T) : Event (BitVec 64) T → Bool
  | .queue (.loadSeq .feed _ _) => 1024 ≤ occupied s.queue
  | _ => false

def RoomStep (feed : Feed) (s : State (BitVec 64) T) (e : Event (BitVec 64) T) (s' : State (BitVec 64) T) : Prop :=
  Step (MpmcQueue.word streamCapacity) feed s e s' ∧ Crowded s e = false

def advanceRoom (feed : Feed) (s : State (BitVec 64) T) (choice : Choice T) :
    Option (Event (BitVec 64) T × State (BitVec 64) T) :=
  match advance (MpmcQueue.word streamCapacity) feed s choice with
  | some (e,s') => if Crowded s e then none else some (e,s')
  | none => none

theorem advanceRoom_sound {feed : Feed} (s : State (BitVec 64) T) (choice : Choice T) (e : Event (BitVec 64) T)
    (s' : State (BitVec 64) T) (moved : advanceRoom feed s choice = some (e,s')) : RoomStep feed s e s' := by
  unfold advanceRoom at moved
  split at moved
  · split at moved
    · cases moved
    · cases moved
      rename_i free followed
      exact ⟨advance_sound _ _ _ _ followed,by simpa using free⟩
  · cases moved

end Chronos.EventPipeline
