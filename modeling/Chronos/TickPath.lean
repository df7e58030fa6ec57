import Chronos.EventQueue
import Chronos.MpmcDelivery

namespace Chronos.TickPath

open MpmcQueue (Capacity Arithmetic word received popCalls pushCalls pushesBy values)
open EventPipeline (Side Action Feed streamCapacity)

variable {G W T : Type}

-- MPMCQueue<Tick, 65536>: filled by the market data gateway, emptied by md_bridge,
-- which hands every tick on to the engine, to ZMQ and to the log.
def mdCapacity : Capacity := ⟨16,by decide⟩

inductive Thread (G : Type) where
  | gateway (g : G)
  | bridge
  deriving DecidableEq

structure State (G W T : Type) where
  md : MpmcQueue.State (Thread G) W T mdCapacity
  stream : EventPipeline.State W T

inductive Event (G W T : Type) where
  | md (e : MpmcQueue.Event (Thread G) W T)
  | stream (e : EventPipeline.Event W T)
  deriving DecidableEq

def initial (A : Arithmetic W mdCapacity) (B : Arithmetic W streamCapacity) (junk : Fin mdCapacity.size → T)
    (junk' : Fin streamCapacity.size → T) : State G W T where
  md := MpmcQueue.initial A junk
  stream := EventPipeline.initial B junk'

-- `while (md_queue->try_pop(tick)) {...}`: the bridge polls once its last tick is
-- through. The gateway's threads only push.
def Allowed (s : State G W T) : MpmcQueue.Event (Thread G) W T → Bool
  | .call (.gateway _) .tryPop => false
  | .call .bridge .tryPop => s.stream.pending.isNone
  | .call .bridge _ => false
  | _ => true

def handOn (stream : EventPipeline.State W T) : MpmcQueue.Event (Thread G) W T → EventPipeline.State W T
  | .ret .bridge (.popped _ v) => {stream with pending := some (v,Feed.mdBridge.body)}
  | _ => stream

section Steps
variable [DecidableEq G] [DecidableEq W]

inductive Step (A : Arithmetic W mdCapacity) (B : Arithmetic W streamCapacity) :
    State G W T → Event G W T → State G W T → Prop where
  | md {s : State G W T} {e : MpmcQueue.Event (Thread G) W T} {md : MpmcQueue.State (Thread G) W T mdCapacity}
      (own : Allowed s e) (taken : MpmcQueue.Step A s.md e md) : Step A B s (.md e) ⟨md,handOn s.stream e⟩
  | stream {s : State G W T} {e : EventPipeline.Event W T} {stream : EventPipeline.State W T} (inner : ∀ v, e ≠ .delivered v)
      (taken : EventPipeline.Step B .mdBridge s.stream e stream) : Step A B s (.stream e) {s with stream := stream}

inductive Choice (G T : Type) where
  | md (t : Thread G) (choice : MpmcQueue.Choice T)
  | stream (choice : EventPipeline.Choice T)
  deriving DecidableEq

def advance (A : Arithmetic W mdCapacity) (B : Arithmetic W streamCapacity) (s : State G W T) :
    Choice G T → Option (Event G W T × State G W T)
  | .md t choice =>
    match MpmcQueue.advance A s.md t choice with
    | some (e,md) => if Allowed s e then some (.md e,⟨md,handOn s.stream e⟩) else none
    | none => none
  | .stream (.deliver _) => none
  | .stream choice =>
    match EventPipeline.advance B .mdBridge s.stream choice with
    | some (e,stream) => some (.stream e,{s with stream := stream})
    | none => none

theorem advance_sound {A : Arithmetic W mdCapacity} {B : Arithmetic W streamCapacity} (s : State G W T) (choice : Choice G T)
    (e : Event G W T) (s' : State G W T) (moved : advance A B s choice = some (e,s')) : Step A B s e s' := by
  cases choice with
  | md t choice =>
    simp only [advance] at moved
    split at moved
    · split at moved
      · cases moved
        exact .md ‹_› (MpmcQueue.advance_sound ‹_›)
      · cases moved
    · cases moved
  | stream choice =>
    cases choice with
    | deliver => cases moved
    | act | access =>
      simp only [advance] at moved
      split at moved
      · cases moved
        rename_i followed
        refine .stream ?_ (EventPipeline.advance_sound _ _ _ _ followed)
        rintro v rfl
        simp only [EventPipeline.advance] at followed
        split at followed <;> simp at followed
      · cases moved

end Steps

def mdPart : Event G W T → Option (MpmcQueue.Event (Thread G) W T)
  | .md e => some e
  | .stream _ => none

def streamPart : Event G W T → Option (EventPipeline.Event W T)
  | .md (.ret .bridge (.popped _ v)) => some (.delivered v)
  | .md _ => none
  | .stream e => some e

def mdEvents (es : List (Event G W T)) : List (MpmcQueue.Event (Thread G) W T) := es.filterMap mdPart
def streamEvents (es : List (Event G W T)) : List (EventPipeline.Event W T) := es.filterMap streamPart

def queueEvents (os : List (EventPipeline.Event W T)) : List (MpmcQueue.Event Side W T) :=
  os.filterMap fun
    | .queue e => some e
    | _ => none

def deliver : EventPipeline.Event W T → Option T
  | .delivered v => some v
  | _ => none

def delivered (os : List (EventPipeline.Event W T)) : List T := os.filterMap deliver

def bridged [DecidableEq G] (es : List (Event G W T)) : List T := (received .bridge (mdEvents es)).map Prod.snd

section Views
variable {os : List (EventPipeline.Event W T)}

theorem offered_eq : EventPipeline.offered os = pushCalls .feed (queueEvents os) := by
  rw [EventPipeline.offered,pushCalls,queueEvents,List.filterMap_filterMap]
  refine List.filterMap_congr fun o _ => ?_
  cases o with
  | queue e =>
    cases e with
    | call u op => cases u <;> cases op <;> rfl
    | _ => rfl
  | _ => rfl

theorem popped_eq : EventPipeline.popped os = (received .engine (queueEvents os)).map Prod.snd := by
  rw [EventPipeline.popped,received,queueEvents,List.filterMap_filterMap,List.map_filterMap]
  refine List.filterMap_congr fun o _ => ?_
  cases o with
  | queue e =>
    cases e with
    | ret u r => cases u <;> cases r <;> rfl
    | _ => rfl
  | _ => rfl

theorem refused_eq : EventPipeline.refused os = MpmcQueue.refused .feed (queueEvents os) := by
  rw [EventPipeline.refused,MpmcQueue.refused,queueEvents,List.filterMap_filterMap]
  refine List.filterMap_congr fun o _ => ?_
  cases o with
  | queue e =>
    cases e with
    | ret u r => cases u <;> cases r <;> rfl
    | _ => rfl
  | _ => rfl

theorem delivered_eq [DecidableEq G] {es : List (Event G W T)} (inner : ∀ v, .stream (.delivered v) ∉ es) :
    delivered (streamEvents es) = bridged es := by
  rw [delivered,streamEvents,bridged,received,mdEvents,List.filterMap_filterMap,List.filterMap_filterMap,List.map_filterMap]
  refine List.filterMap_congr fun e member => ?_
  cases e with
  | md e =>
    cases e with
    | ret u r => cases u <;> cases r <;> simp [streamPart,mdPart,MpmcQueue.Event.received,deliver]
    | _ => rfl
  | stream e =>
    cases e with
    | delivered v => exact absurd member (inner v)
    | _ => rfl

end Views

section Body
variable [DecidableEq W] {B : Arithmetic W streamCapacity} {s s' : EventPipeline.State W T} {o : EventPipeline.Event W T}
variable {os : List (EventPipeline.Event W T)} {junk : Fin streamCapacity.size → T}

def left (a : Action) : Option (T × List Action) → List T
  | some (v,rest) => if a ∈ rest then [v] else []
  | none => []

structure Through (os : List (EventPipeline.Event W T)) (pending : Option (T × List Action)) : Prop where
  rest : ∀ v rest, pending = some (v,rest) → rest <:+ Feed.mdBridge.body
  pushes : delivered os = EventPipeline.offered os++left .push pending
  publishes : delivered os = EventPipeline.published os++left .publish pending
  logs : (EventPipeline.logged os++left .log pending).Sublist (delivered os)

omit [DecidableEq W] in
theorem delivered_snoc : delivered (os++[o]) = delivered os++(deliver o).toList := filterMap_snoc _ _ _

theorem within {rest : List Action} (suffix : rest <:+ Feed.mdBridge.body) :
    rest = [.push,.publish,.log] ∨ rest = [.publish,.log] ∨ rest = [.log] ∨ rest = [] := by
  obtain ⟨done,whole⟩ := suffix
  rcases done with _ | ⟨_,_ | ⟨_,_ | ⟨_,_ | ⟨_,_⟩⟩⟩⟩ <;> simp_all [Feed.body]

omit [DecidableEq W] in
theorem Through.access {e : MpmcQueue.Event Side W T} {pending : Option (T × List Action)} (through : Through os pending)
    (own : EventPipeline.Allowed e) : Through (os++[.queue e]) pending := by
  have none : EventPipeline.Event.offer (.queue e : EventPipeline.Event W T) = none := by
    cases e with
    | call u op => cases u <;> cases op <;> simp [EventPipeline.Allowed,EventPipeline.Event.offer] at own ⊢
    | _ => rfl
  obtain ⟨rests,pushes,publishes,logs⟩ := through
  refine ⟨rests,?_,?_,?_⟩
  · rw [delivered_snoc,EventPipeline.offered_snoc,none]
    simpa [deliver] using pushes
  · rw [delivered_snoc,EventPipeline.published_snoc]
    simpa [deliver,EventPipeline.Event.publish] using publishes
  · rw [delivered_snoc,EventPipeline.logged_snoc]
    simpa [deliver,EventPipeline.Event.log] using logs

theorem Through.step (through : Through os s.pending) (step : EventPipeline.Step B .mdBridge s o s') :
    Through (os++[o]) s'.pending := by
  cases step with
  | access own taken => exact through.access own
  | deliver free =>
    obtain ⟨_,pushes,publishes,logs⟩ := through
    rw [free] at pushes publishes logs
    simp only [left,List.append_nil] at pushes publishes logs
    refine ⟨?_,?_,?_,?_⟩
    · rintro _ _ ⟨⟩
      exact List.suffix_refl _
    · rw [delivered_snoc,EventPipeline.offered_snoc,pushes]
      simp [deliver,EventPipeline.Event.offer,left,Feed.body]
    · rw [delivered_snoc,EventPipeline.published_snoc,publishes]
      simp [deliver,EventPipeline.Event.publish,left,Feed.body]
    · rw [delivered_snoc,EventPipeline.logged_snoc]
      simpa [deliver,EventPipeline.Event.log,left,Feed.body] using logs
  | test back next =>
    have suffix := through.rest _ _ next
    rcases within suffix with shape | shape | shape | shape <;> cases shape
  | log back next =>
    rename_i v rest running
    obtain ⟨rests,pushes,publishes,logs⟩ := through
    rw [next] at pushes publishes logs
    rcases within (rests _ _ next) with shape | shape | shape | shape <;> cases shape
    have line : (EventPipeline.Event.log (.logged v running : EventPipeline.Event W T)).toList.Sublist [v] := by
      cases running <;> simp [EventPipeline.Event.log]
    refine ⟨?_,?_,?_,?_⟩
    · rintro _ _ ⟨⟩
      exact List.nil_suffix
    · rw [delivered_snoc,EventPipeline.offered_snoc,pushes]
      simp [deliver,EventPipeline.Event.offer,left]
    · rw [delivered_snoc,EventPipeline.published_snoc,publishes]
      simp [deliver,EventPipeline.Event.publish,left]
    · rw [delivered_snoc,EventPipeline.logged_snoc]
      simpa [deliver,left] using ((List.Sublist.refl _).append line).trans logs
  | push back next | publish back next =>
    obtain ⟨rests,pushes,publishes,logs⟩ := through
    have suffix := rests _ _ next
    rw [next] at pushes publishes logs
    rcases within suffix with shape | shape | shape | shape <;> cases shape
    refine ⟨?_,?_,?_,?_⟩
    · rintro _ _ ⟨⟩
      exact (List.suffix_cons _ _).trans suffix
    · rw [delivered_snoc,EventPipeline.offered_snoc,pushes]
      simp [deliver,EventPipeline.Event.offer,left]
    · rw [delivered_snoc,EventPipeline.published_snoc,publishes]
      simp [deliver,EventPipeline.Event.publish,left]
    · rw [delivered_snoc,EventPipeline.logged_snoc]
      refine List.Sublist.trans ?_ (logs.trans (List.sublist_append_left _ _))
      rw [List.append_assoc]
      exact List.Sublist.append (List.Sublist.refl _) (by simp [left,EventPipeline.Event.log])
  | finish back next =>
    obtain ⟨_,pushes,publishes,logs⟩ := through
    rw [next] at pushes publishes logs
    refine ⟨by simp,?_,?_,?_⟩
    · rw [delivered_snoc,EventPipeline.offered_snoc,pushes]
      simp [deliver,EventPipeline.Event.offer,left]
    · rw [delivered_snoc,EventPipeline.published_snoc,publishes]
      simp [deliver,EventPipeline.Event.publish,left]
    · rw [delivered_snoc,EventPipeline.logged_snoc]
      simpa [deliver,EventPipeline.Event.log,left] using logs

theorem runs_through (path : Runs (EventPipeline.Step B .mdBridge) (EventPipeline.initial B junk) os s) : Through os s.pending :=
  path.preserves_history (fun os s => Through os s.pending) (fun _ _ _ _ through step => through.step step)
    ⟨by simp [EventPipeline.initial],rfl,rfl,List.Sublist.refl _⟩

structure Ends (es : List (MpmcQueue.Event Side W T)) : Prop where
  feed : popCalls .feed es = 0
  engine : pushCalls .engine es = []

omit [DecidableEq W] in
theorem Ends.snoc {es : List (MpmcQueue.Event Side W T)} {e : MpmcQueue.Event Side W T} (ends : Ends es)
    (own : EventPipeline.Allowed e ∨ ∃ v, e = .call .feed (.tryPush v)) : Ends (es++[e]) := by
  have quiet : e.asked .feed = 0 ∧ ∀ v, e ≠ .call .engine (.tryPush v) := by
    rcases own with own | ⟨v,rfl⟩
    · cases e with
      | call u op => cases u <;> cases op <;> simp_all [EventPipeline.Allowed,MpmcQueue.Event.asked]
      | _ => exact ⟨rfl,by simp⟩
    · exact ⟨rfl,by simp⟩
  constructor
  · rw [MpmcQueue.popCalls_snoc,ends.feed,quiet.1]
  · rw [MpmcQueue.pushCalls_other quiet.2]
    exact ends.engine

theorem queue_runs (path : Runs (EventPipeline.Step B .mdBridge) (EventPipeline.initial B junk) os s) :
    Runs (MpmcQueue.Step B) (MpmcQueue.initial B junk) (queueEvents os) s.queue ∧ Ends (queueEvents os) := by
  refine path.preserves_history (fun os s =>
    Runs (MpmcQueue.Step B) (MpmcQueue.initial B junk) (queueEvents os) s.queue ∧ Ends (queueEvents os)) ?_ ⟨.nil,rfl,rfl⟩
  rintro os s o s' ⟨front,ends⟩ step
  rw [queueEvents,filterMap_snoc]
  cases step with
  | push back next => exact ⟨front.step (.call back),ends.snoc (.inr ⟨_,rfl⟩)⟩
  | access own taken => exact ⟨front.step taken,ends.snoc (.inl own)⟩
  | deliver | test | publish | log | finish =>
    rw [Option.toList_none,List.append_nil]
    exact ⟨front,ends⟩

end Body

section Paths
variable [DecidableEq G] [DecidableEq W] {A : Arithmetic W mdCapacity} {B : Arithmetic W streamCapacity} {s s' : State G W T}
variable {junk : Fin mdCapacity.size → T} {junk' : Fin streamCapacity.size → T} {es : List (Event G W T)} {e : Event G W T}

-- A run of the path, seen from either queue. While the bridge is inside a try_pop it
-- has no tick in its loop body.
structure Split (A : Arithmetic W mdCapacity) (B : Arithmetic W streamCapacity) (junk : Fin mdCapacity.size → T)
    (junk' : Fin streamCapacity.size → T) (es : List (Event G W T)) (s : State G W T) : Prop where
  md : Runs (MpmcQueue.Step A) (MpmcQueue.initial A junk) (mdEvents es) s.md
  stream : Runs (EventPipeline.Step B .mdBridge) (EventPipeline.initial B junk') (streamEvents es) s.stream
  gateways : ∀ g, popCalls (.gateway g) (mdEvents es) = 0
  inner : ∀ v, .stream (.delivered v) ∉ es
  inside : s.md.threads .bridge = .idle ∨ s.stream.pending = none

omit [DecidableEq G] [DecidableEq W] in
theorem mdEvents_snoc : mdEvents (es++[e]) = mdEvents es++(mdPart e).toList := filterMap_snoc _ _ _
omit [DecidableEq G] [DecidableEq W] in
theorem streamEvents_snoc : streamEvents (es++[e]) = streamEvents es++(streamPart e).toList := filterMap_snoc _ _ _

omit [DecidableEq G] [DecidableEq W] in
theorem handOn_exact (stream : EventPipeline.State W T) (d : MpmcQueue.Event (Thread G) W T) :
    (∃ pos v, d = .ret .bridge (.popped pos v) ∧ streamPart (.md d) = some (.delivered v) ∧
      handOn stream d = {stream with pending := some (v,Feed.mdBridge.body)}) ∨
    streamPart (.md d) = none ∧ handOn stream d = stream := by
  cases d with
  | ret u r =>
    cases u with
    | gateway => exact .inr ⟨rfl,rfl⟩
    | bridge =>
      cases r with
      | popped pos v => exact .inl ⟨pos,v,rfl,rfl,rfl⟩
      | _ => exact .inr ⟨rfl,rfl⟩
  | _ => exact .inr ⟨rfl,rfl⟩

theorem inside_step {d : MpmcQueue.Event (Thread G) W T} {md : MpmcQueue.State (Thread G) W T mdCapacity}
    (inside : s.md.threads .bridge = .idle ∨ s.stream.pending = none) (own : Allowed s d) (taken : MpmcQueue.Step A s.md d md) :
    md.threads .bridge = .idle ∨ (handOn s.stream d).pending = none := by
  by_cases mine : d.thread = .bridge
  · cases taken with
    | @call _ _ op free =>
      obtain rfl : _ = Thread.bridge := mine
      cases op <;> simp [Allowed] at own
      exact .inr own
    | ret at_ =>
      obtain rfl : _ = Thread.bridge := mine
      exact .inl (MpmcQueue.State.move_self _ _ _)
    | _ at_ =>
      obtain rfl : _ = Thread.bridge := mine
      exact .inr (inside.resolve_left (by rw [at_]; simp))
  · rw [taken.frame (Ne.symm mine)]
    rcases handOn_exact s.stream d with ⟨pos,v,rfl,_⟩ | ⟨_,same⟩
    · exact absurd rfl mine
    · rw [same]
      exact inside

theorem Split.step (split : Split A B junk junk' es s) (step : Step A B s e s') : Split A B junk junk' (es++[e]) s' := by
  obtain ⟨mds,streams,gateways,inner,inside⟩ := split
  cases step with
  | @stream o stream outer taken =>
    have mdSame : mdEvents (es++[.stream o]) = mdEvents es := by rw [mdEvents_snoc]; exact List.append_nil _
    refine ⟨mdSame ▸ mds,?_,fun g => by rw [mdSame]; exact gateways g,fun v member => ?_,?_⟩
    · rw [streamEvents_snoc]
      exact streams.step taken
    · rcases List.mem_append.mp member with old | new
      · exact inner v old
      · cases List.mem_singleton.mp new
        exact outer v rfl
    · rcases inside with idle | through
      · exact .inl idle
      · cases taken <;> simp_all
  | @md d md own taken =>
    have asked : ∀ g, d.asked (.gateway g) = 0 := by
      intro g
      cases d with
      | call u op => cases u <;> cases op <;> simp_all [Allowed,MpmcQueue.Event.asked]
      | _ => rfl
    refine ⟨?_,?_,fun g => ?_,fun v member => ?_,inside_step inside own taken⟩
    · rw [mdEvents_snoc]
      exact mds.step taken
    · rw [streamEvents_snoc]
      rcases handOn_exact s.stream d with ⟨pos,v,rfl,part,got⟩ | ⟨part,same⟩
      · have free : s.stream.pending = none := by
          refine inside.resolve_left fun idle => ?_
          cases taken with
          | ret at_ => rw [at_] at idle; cases idle
        rw [part,got]
        exact streams.step (.deliver free)
      · rw [part,same,Option.toList_none,List.append_nil]
        exact streams
    · rw [mdEvents_snoc]
      show popCalls _ (_++[d]) = 0
      rw [MpmcQueue.popCalls_snoc,gateways,asked]
    · rcases List.mem_append.mp member with old | new
      · exact inner v old
      · cases List.mem_singleton.mp new

theorem runs_split (path : Runs (Step A B) (initial A B junk junk') es s) : Split A B junk junk' es s :=
  path.preserves_history (Split A B junk junk') (fun _ _ _ _ split step => split.step step)
    ⟨.nil,.nil,fun _ => rfl,by simp,.inl rfl⟩

end Paths

section Accounts
variable [DecidableEq G]

-- The two queues' tickets are words; neither run may push more than 2^64 values, less
-- the slots of the queue.
def Fits (es : List (Event G (BitVec 64) T)) : Prop :=
  MpmcQueue.Fits mdCapacity (2^63) (mdEvents es) ∧ MpmcQueue.Fits streamCapacity (2^63) (queueEvents (streamEvents es))

def inHand (s : State G (BitVec 64) T) : Nat :=
  (s.md.threads .bridge).popping.toList.length+(left .push s.stream.pending).length+
    (s.stream.queue.threads .feed).offering+(s.stream.queue.threads .engine).popping.toList.length

theorem bridge_takes {junk : Fin mdCapacity.size → T} {junk' : Fin streamCapacity.size → T} {es : List (Event G (BitVec 64) T)}
    {s : State G (BitVec 64) T} (split : Split (word mdCapacity) (word streamCapacity) junk junk' es s)
    (acc : MpmcQueue.Accounted BitVec.toNat (mdEvents es) s.md) : bridged es <+: values (mdEvents es) ∧
      (received .bridge (mdEvents es)).length+(s.md.threads .bridge).popping.toList.length = s.md.tail.toNat :=
  MpmcQueue.sole_consumer acc (MpmcQueue.runs_handed split.md) fun u other => by
    cases u with
    | gateway g => exact split.gateways g
    | bridge => exact absurd rfl other

structure EngineTakes (os : List (EventPipeline.Event (BitVec 64) T)) (s : EventPipeline.State (BitVec 64) T) : Prop where
  part : (EventPipeline.popped os).Sublist (pushCalls .feed (queueEvents os))
  all : (pushCalls .feed (queueEvents os)).length = (s.queue.threads .feed).offering+(EventPipeline.refused os).length+
    (s.queue.head.toNat-s.queue.tail.toNat)+(s.queue.threads .engine).popping.toList.length+(EventPipeline.popped os).length

theorem engine_takes {junk : Fin streamCapacity.size → T} {os : List (EventPipeline.Event (BitVec 64) T)}
    {s : EventPipeline.State (BitVec 64) T}
    (path : Runs (EventPipeline.Step (word streamCapacity) .mdBridge) (EventPipeline.initial (word streamCapacity) junk) os s)
    (fits : MpmcQueue.Fits streamCapacity (2^63) (queueEvents os)) : EngineTakes os s := by
  obtain ⟨queues,ends⟩ := queue_runs path
  have acc := MpmcQueue.runs_accounted (MpmcQueue.word_faithful _) (streamCapacity.two_le (by decide)) queues fits
  have handed := MpmcQueue.runs_handed queues
  obtain ⟨front,popped⟩ := MpmcQueue.sole_consumer (t:=.engine) acc handed fun u other => by
    cases u with
    | feed => exact ends.feed
    | engine => exact absurd rfl other
  have produced := MpmcQueue.sole_producer (t:=.feed) acc fun u other => by
    cases u with
    | feed => exact absurd rfl other
    | engine => exact ends.engine
  constructor
  · rw [popped_eq]
    exact (produced ▸ front.sublist).trans (acc.owns .feed).sublist
  · have head := acc.inv.length
    have order := acc.inv.order
    have offers := (handed .feed).offers
    rw [produced] at head
    rw [refused_eq,popped_eq,List.length_map]
    omega

structure TicksConserved (es : List (Event G (BitVec 64) T)) (s : State G (BitVec 64) T) : Prop where
  pushed : ∀ g, (pushesBy (.gateway g) (mdEvents es)).Sublist (pushCalls (.gateway g) (mdEvents es))
  taken : bridged es <+: values (mdEvents es)
  published : ∃ rest, bridged es = EventPipeline.published (streamEvents es)++rest ∧ rest.length ≤ 1
  logged : (EventPipeline.logged (streamEvents es)).Sublist (bridged es)
  popped : (EventPipeline.popped (streamEvents es)).Sublist (bridged es)
  conserved : (values (mdEvents es)).length = (s.md.head.toNat-s.md.tail.toNat)+inHand s+
    (EventPipeline.refused (streamEvents es)).length+(s.stream.queue.head.toNat-s.stream.queue.tail.toNat)+
    (EventPipeline.popped (streamEvents es)).length

theorem ticks_conserved {G T : Type} [DecidableEq G] {junk : Fin mdCapacity.size → T} {junk' : Fin streamCapacity.size → T}
    {es : List (Event G (BitVec 64) T)} {s : State G (BitVec 64) T}
    (path : Runs (Step (word mdCapacity) (word streamCapacity)) (initial (word mdCapacity) (word streamCapacity) junk junk') es s)
    (fits : Fits es) : TicksConserved es s := by
  have split := runs_split path
  have through := runs_through split.stream
  have accMd := MpmcQueue.runs_accounted (MpmcQueue.word_faithful _) (mdCapacity.two_le (by decide)) split.md fits.1
  have engine := engine_takes split.stream fits.2
  obtain ⟨first,taken⟩ := bridge_takes split accMd
  have pushes := through.pushes
  rw [delivered_eq split.inner,offered_eq] at pushes
  have publishes := through.publishes
  rw [delivered_eq split.inner] at publishes
  have logs := through.logs
  rw [delivered_eq split.inner] at logs
  refine ⟨fun g => (accMd.owns (.gateway g)).sublist,first,⟨_,publishes,?_⟩,?_,?_,?_⟩
  · unfold left
    split <;> try split
    all_goals simp
  · exact (List.sublist_append_left _ _).trans logs
  · rw [pushes]
    exact engine.part.trans (List.sublist_append_left _ _)
  · have head := accMd.inv.length
    have order := accMd.inv.order
    have all := engine.all
    have got : (received .bridge (mdEvents es)).length = (bridged es).length := by rw [bridged,List.length_map]
    have passed := congrArg List.length pushes
    rw [List.length_append] at passed
    rw [inHand]
    omega

end Accounts

def twoTicks : List (Choice Unit Nat) := List.flatten [
  .md (.gateway ()) (.call (.tryPush 5))::List.replicate 6 (.md (.gateway ()) .run),
  .md (.gateway ()) (.call (.tryPush 6))::List.replicate 6 (.md (.gateway ()) .run),
  .md .bridge (.call .tryPop)::List.replicate 6 (.md .bridge .run),
  .stream (.act true)::List.replicate 6 (.stream (.access .feed .run)),
  List.replicate 3 (.stream (.act true)),
  .stream (.access .engine (.call .tryPop))::List.replicate 6 (.stream (.access .engine .run))]

theorem ticks_conserved_twoTicks :
    ∃ follows : (play (advance (word mdCapacity) (word streamCapacity))
        (initial (word mdCapacity) (word streamCapacity) (fun _ => 0) (fun _ => 0)) twoTicks).isSome,
      let run := (play (advance (word mdCapacity) (word streamCapacity))
        (initial (word mdCapacity) (word streamCapacity) (fun _ => 0) (fun _ => 0)) twoTicks).get follows
      EventPipeline.popped (streamEvents run.1) = [5] ∧ run.2.md.head = 2 ∧ run.2.md.tail = 1 ∧ TicksConserved run.1 run.2 :=
  ⟨by decide +kernel,by decide +kernel,by decide +kernel,by decide +kernel,
    ticks_conserved (play_get advance_sound (by decide +kernel)) (by unfold Fits MpmcQueue.Fits; decide +kernel)⟩

end Chronos.TickPath
