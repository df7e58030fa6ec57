import Chronos.EventQueue
import Chronos.Types

namespace Chronos.EventPipeline
open MpmcQueue (Capacity Arithmetic Local Result unbounded low values seqAt Accounted)

variable {T : Type}

def Phase (os : List (Event (BitVec 64) T)) (back : Prop) : Option (T × List Action) → Prop
  | none | some (_,[]) => back ∧ published os = offered os
  | some (_,.unlessStopped::rest) => rest = [.push,.publish,.log] ∧ back ∧ published os = offered os
  | some (_,.push::rest) => (rest = [.publish] ∨ rest = [.publish,.log]) ∧ back ∧ published os = offered os
  | some (v,.publish::rest) => (rest = [] ∨ rest = [.log]) ∧ offered os = published os++[v]
  | some (v,.log::rest) => rest = [] ∧ back ∧ published os = offered os ∧
      ∃ front, published os = front++[v] ∧ (logged os).Sublist front

theorem Phase.transfer {os os' : List (Event (BitVec 64) T)} {back back' : Prop} {pending : Option (T × List Action)}
    (phase : Phase os back pending) (offers : offered os' = offered os) (publishes : published os' = published os)
    (keeps : logged os' = logged os) (returns : back → back') : Phase os' back' pending := by
  rcases pending with _ | ⟨v,_ | ⟨action,rest⟩⟩
  · exact ⟨returns phase.1,by rw [offers,publishes]; exact phase.2⟩
  · exact ⟨returns phase.1,by rw [offers,publishes]; exact phase.2⟩
  · cases action with
    | unlessStopped => exact ⟨phase.1,returns phase.2.1,by rw [offers,publishes]; exact phase.2.2⟩
    | push => exact ⟨phase.1,returns phase.2.1,by rw [offers,publishes]; exact phase.2.2⟩
    | publish => exact ⟨phase.1,by rw [offers,publishes]; exact phase.2⟩
    | log =>
      obtain ⟨last,back,same,before⟩ := phase
      exact ⟨last,returns back,by rw [offers,publishes]; exact same,by rw [publishes,keeps]; exact before⟩

structure Flow (os : List (Event (BitVec 64) T)) (s : State (BitVec 64) T) : Prop where
  carried : ∃ es q, Carried os es q ∧ s.queue = q.map low
  phase : Phase os (s.queue.threads .feed = .idle) s.pending
  logs : (logged os).Sublist (published os)

section Flow
variable {s s' : State (BitVec 64) T} {o : Event (BitVec 64) T} {os : List (Event (BitVec 64) T)} {feed : Feed}

theorem Flow.access {e : MpmcQueue.Event Side (BitVec 64) T} {queue : MpmcQueue.State Side (BitVec 64) T streamCapacity}
    (flow : Flow os s) (own : Allowed e) (taken : MpmcQueue.Step (MpmcQueue.word streamCapacity) s.queue e queue)
    (spare : Crowded s (.queue e) = false) : Flow (os++[.queue e]) {s with queue := queue} := by
  obtain ⟨⟨es,q,carried,shape⟩,phase,logs⟩ := flow
  obtain ⟨es',q',carried',shape'⟩ := carried.lift (shape ▸ taken) (.inl own) (by
    rintro pos seq rfl
    simpa [Crowded,shape] using spare)
  have offers : offered (os++[.queue e]) = offered os := by simp [offered_snoc,allowed_offer own]
  have publishes : published (os++[.queue e]) = published os := by simp [published_snoc,Event.publish]
  have keeps : logged (os++[.queue e]) = logged os := by simp [logged_snoc,Event.log]
  refine ⟨⟨es',q',carried',shape'⟩,?_,by rw [keeps,publishes]; exact logs⟩
  exact phase.transfer offers publishes keeps (allowed_idle own taken)

theorem Flow.step (flow : Flow os s) (step : RoomStep feed s o s') : Flow (os++[o]) s' := by
  obtain ⟨step,spare⟩ := step
  obtain ⟨⟨es,q,carried,queue⟩,phase,logs⟩ := flow
  cases step with
  | deliver free =>
    rw [free] at phase
    refine ⟨⟨es,q,carried.quiet rfl rfl rfl rfl,queue⟩,?_,?_⟩
    · obtain ⟨back,same⟩ := phase
      cases feed <;> simp [Feed.body,Phase,published_snoc,offered_snoc,Event.publish,Event.offer,back,same]
    · simpa [logged_snoc,published_snoc,Event.log,Event.publish] using logs
  | test back next =>
    rename_i v rest running
    rw [next] at phase
    refine ⟨⟨es,q,carried.quiet rfl rfl rfl rfl,queue⟩,?_,?_⟩
    · obtain ⟨rfl,_,same⟩ := phase
      cases running <;> simp [Phase,published_snoc,offered_snoc,Event.publish,Event.offer,back,same]
    · simpa [logged_snoc,published_snoc,Event.log,Event.publish] using logs
  | push back next =>
    rename_i v rest
    rw [next] at phase
    have taken : MpmcQueue.Step (MpmcQueue.word streamCapacity) (q.map low) (.call .feed (.tryPush v))
        (s.queue.move .feed (MpmcQueue.entry (.tryPush v))) := queue ▸ .call back
    obtain ⟨es',q',carried',queue'⟩ := carried.lift taken (.inr ⟨v,rfl⟩) (by simp)
    refine ⟨⟨es',q',carried',queue'⟩,?_,?_⟩
    · obtain ⟨rest,_,same⟩ := phase
      rcases rest with rfl | rfl <;>
        simp [Phase,published_snoc,offered_snoc,Event.publish,Event.offer,same]
    · simpa [logged_snoc,published_snoc,Event.log,Event.publish] using logs
  | publish back next =>
    rename_i v rest
    rw [next] at phase
    refine ⟨⟨es,q,carried.quiet rfl rfl rfl rfl,queue⟩,?_,?_⟩
    · obtain ⟨rest,same⟩ := phase
      rcases rest with rfl | rfl
      · simp [Phase,published_snoc,offered_snoc,Event.publish,Event.offer,back,same]
      · simpa [Phase,published_snoc,offered_snoc,logged_snoc,Event.publish,Event.offer,Event.log,back,same] using logs
    · simpa [logged_snoc,published_snoc,Event.log,Event.publish] using logs.trans (List.sublist_append_left _ _)
  | log back next =>
    rename_i v rest running
    rw [next] at phase
    obtain ⟨rfl,_,same,front,shape,before⟩ := phase
    refine ⟨⟨es,q,carried.quiet rfl rfl rfl rfl,queue⟩,?_,?_⟩
    · simp [Phase,published_snoc,offered_snoc,Event.publish,Event.offer,back,same]
    · cases running with
      | false => simpa [logged_snoc,published_snoc,Event.log,Event.publish] using logs
      | true =>
        simp only [logged_snoc,published_snoc,Event.log,Event.publish,Option.toList_some,Option.toList_none,
          List.append_nil,shape]
        exact before.append (List.Sublist.refl _)
  | finish back next =>
    rw [next] at phase
    refine ⟨⟨es,q,carried.quiet rfl rfl rfl rfl,queue⟩,?_,?_⟩
    · simpa [Phase,published_snoc,offered_snoc,Event.publish,Event.offer] using phase
    · simpa [logged_snoc,published_snoc,Event.log,Event.publish] using logs
  | access own taken => exact Flow.access ⟨⟨es,q,carried,queue⟩,phase,logs⟩ own taken spare

theorem initial_flow (junk : Fin streamCapacity.size → T) :
    Flow [] (initial (MpmcQueue.word streamCapacity) junk) := by
  have faithful := MpmcQueue.unbounded_faithful streamCapacity streamCapacity.size
  have acc : Accounted id [] (MpmcQueue.initial (unbounded streamCapacity) junk : MpmcQueue.State Side Nat T streamCapacity) :=
    MpmcQueue.initial_accounted faithful (by decide) junk
  refine ⟨⟨[],_,⟨acc,?_,rfl,rfl,List.prefix_refl _,rfl,rfl⟩,(MpmcQueue.initial_low junk).symm⟩,?_,List.Sublist.refl _⟩
  · intro t
    cases t <;> trivial
  · exact ⟨rfl,rfl⟩

theorem runs_flow {junk : Fin streamCapacity.size → T}
    (path : Runs (RoomStep feed) (initial (MpmcQueue.word streamCapacity) junk) os s) : Flow os s :=
  path.preserves_history Flow (fun _ _ _ _ flow step => flow.step step) (initial_flow junk)

theorem Flow.published_accepted (flow : Flow os s) : published os <+: accepted os := by
  obtain ⟨⟨es,q,carried,queue⟩,phase,_⟩ := flow
  have idle : s.queue.threads .feed = .idle → published os = offered os → published os <+: accepted os := by
    intro back same
    have equal : published os = accepted os := same.trans (carried.idle (queue ▸ back)).2.symm
    exact equal ▸ List.prefix_refl _
  generalize s.pending = pending at phase
  rcases pending with _ | ⟨v,_ | ⟨action,rest⟩⟩
  · exact idle phase.1 phase.2
  · exact idle phase.1 phase.2
  · cases action with
    | unlessStopped => exact idle phase.2.1 phase.2.2
    | push => exact idle phase.2.1 phase.2.2
    | log => exact idle phase.2.1 phase.2.2.1
    | publish =>
      have shape : published os++[v] = accepted os++(won (q.threads .feed)++waiting (q.threads .feed)) := by
        rw [← phase.2,carried.offers,carried.accepts,List.append_assoc]
      rcases inside (q.threads .feed) with none | ⟨w,one⟩
      · rw [none,List.append_nil] at shape
        exact ⟨[v],shape⟩
      · rw [one] at shape
        have equal : published os = accepted os := (List.append_inj' shape rfl).1
        exact equal ▸ List.prefix_refl _

theorem Flow.between (flow : Flow os s) (none : s.pending = none) :
    s.queue.threads .feed = .idle ∧ accepted os = offered os ∧ published os = offered os := by
  obtain ⟨⟨es,q,carried,queue⟩,phase,_⟩ := flow
  rw [none] at phase
  exact ⟨phase.1,(carried.idle (queue ▸ phase.1)).2,phase.2⟩

structure SameStream (feed : Feed) (os : List (Event (BitVec 64) T)) (s : State (BitVec 64) T) : Prop where
  publishedAccepted : published os <+: accepted os
  loggedPublished : (logged os).Sublist (published os)
  noneRefused : refused os = []
  acceptedOffered : accepted os <+: offered os
  poppedOffered : popped os <+: offered os
  betweenCallbacks : s.pending = none → accepted os = offered os ∧ published os = offered os
  drained : s.pending = none → s.queue.threads .engine = .idle → s.queue.head = s.queue.tail →
    popped os = published os
  crowdedRefused : ∀ o s', Step (MpmcQueue.word streamCapacity) feed s o s' → Crowded s o →
    ∃ v, s'.queue.threads .feed = .returning (.full v)

theorem same_stream (path : Runs (RoomStep feed) (initial (MpmcQueue.word streamCapacity) junk) os s) :
    SameStream feed os s := by
  have flow := runs_flow path
  have published_accepted := flow.published_accepted
  have between := flow.between
  obtain ⟨⟨es,q,carried,queue⟩,_,logs⟩ := flow
  have inOrder : values es <+: offered os := ⟨_,carried.offers.symm⟩
  refine ⟨published_accepted,logs,carried.refuses,?_,carried.pops.trans inOrder,fun none => (between none).2,?_,?_⟩
  · exact List.IsPrefix.trans ⟨_,carried.accepts.symm⟩ inOrder
  · intro none engine empty
    obtain ⟨back,_,same⟩ := between none
    have idle : q.threads .engine = .idle := by
      rw [queue] at engine
      cases here : q.threads .engine <;> simp [here,Local.map] at engine
      rfl
    have order : q.tail ≤ q.head := carried.acc.inv.order
    have room : q.head ≤ q.tail+streamCapacity.size := carried.acc.inv.room
    have size : streamCapacity.size = 1024 := rfl
    have level : q.head = q.tail := by
      rw [queue] at empty
      exact MpmcQueue.low_injective _ _ (by omega) (by omega) empty
    have taken := carried.taken
    rw [idle] at taken
    have count : (values es).length = q.head := carried.acc.inv.length
    rw [same,← (carried.idle (queue ▸ back)).1]
    exact carried.pops.eq_of_length (by simp only [held] at taken; omega)
  · intro o s' step crowded
    obtain ⟨pos,seq,rfl⟩ : ∃ pos seq, o = .queue (.loadSeq .feed pos seq) := by
      revert crowded
      unfold Crowded
      split
      · exact fun _ => ⟨_,_,rfl⟩
      · simp
    have taken := queue ▸ step.queue
    obtain ⟨e,q',looked,shape,last⟩ :=
      MpmcQueue.Step.of_low carried.acc.inv (by decide) (carried.recent _) taken
    cases e <;> simp only [MpmcQueue.Event.map,reduceCtorEq] at shape
    cases shape
    obtain ⟨v,refused⟩ := carried.crowded looked (by simpa [Crowded,queue] using crowded)
    exact ⟨v,by rw [last,MpmcQueue.State.map_threads,refused]; rfl⟩

end Flow

def roundTrip : List (Choice Nat) :=
  [.deliver 7,.act true,.access .feed .run,.access .feed .run,.access .feed .run,.access .engine (.call .tryPop),
   .access .feed .run,.access .feed .run,.access .engine .run,.access .engine .run,.access .engine .run,
   .access .engine .run,.access .feed .run,.act true,.access .engine .run,.access .engine .run,.act true,.act true]

theorem same_stream_roundTrip :
    ∃ follows : (play (advanceRoom .mdBridge) (initial (MpmcQueue.word streamCapacity) (fun _ => 0)) roundTrip).isSome,
      SameStream .mdBridge ((play (advanceRoom .mdBridge) (initial (MpmcQueue.word streamCapacity) (fun _ => 0)) roundTrip).get follows).1
        ((play (advanceRoom .mdBridge) (initial (MpmcQueue.word streamCapacity) (fun _ => 0)) roundTrip).get follows).2 :=
  ⟨by decide +kernel,same_stream (play_get advanceRoom_sound _)⟩

section Lost
variable {s : State (BitVec 64) T} {os : List (Event (BitVec 64) T)} {junk : Fin streamCapacity.size → T}

structure Resting (os : List (Event (BitVec 64) T)) (s : State (BitVec 64) T) (n : Nat) : Prop where
  pending : s.pending = none
  idle : ∀ t, s.queue.threads t = .idle
  head : s.queue.head = low n
  popped : popped os = []

theorem Resting.tickets {q : MpmcQueue.State Side Nat T streamCapacity} {es : List (MpmcQueue.Event Side Nat T)}
    (rest : Resting os s n) (carried : Carried os es q) (queue : s.queue = q.map low) (few : n ≤ 1024) :
    q.head = n ∧ q.tail = 0 ∧ ∀ t, q.threads t = .idle := by
  have size : streamCapacity.size = 1024 := rfl
  have room : q.head ≤ q.tail+streamCapacity.size := carried.acc.inv.room
  have idle : ∀ t, q.threads t = .idle := by
    intro t
    have back := rest.idle t
    rw [queue] at back
    cases here : q.threads t <;> simp [here,Local.map] at back
    rfl
  have tail : q.tail = 0 := by
    have taken := carried.taken
    rw [idle,rest.popped] at taken
    simpa [held] using taken.symm
  have head := rest.head
  rw [queue,MpmcQueue.State.map_head] at head
  exact ⟨MpmcQueue.low_injective _ _ (by omega) (by omega) head,tail,idle⟩

theorem fill_passes (path : Runs (RoomStep .fillCb) (initial (MpmcQueue.word streamCapacity) junk) os s)
    (rest : Resting os s n) (room : n < 1024) (v : T) :
    ∃ os' s', Runs (RoomStep .fillCb) (initial (MpmcQueue.word streamCapacity) junk) os' s' ∧
      Resting os' s' (n+1) ∧ offered os' = offered os++[v] := by
  obtain ⟨⟨es,q,carried,queue⟩,_,_⟩ := runs_flow path
  obtain ⟨head,tail,idle⟩ := rest.tickets carried queue (Nat.le_of_lt room)
  have free : (s.queue.slots ((MpmcQueue.word streamCapacity).slot s.queue.head)).seq = s.queue.head := by
    have seq : seqAt id q q.head = q.head :=
      carried.acc.inv.vacant q.head (Nat.le_refl _) (by simp only [id,head,tail]; exact Nat.lt_of_lt_of_eq room rfl)
        (fun t pos reads => by rw [idle t] at reads; cases reads)
    rw [queue,MpmcQueue.State.map_head,MpmcQueue.low_slot,MpmcQueue.State.map_seq]
    exact congrArg low seq
  have spare : EventPipeline.occupied s.queue = n := by
    rw [queue,carried.occupied,idle,head,tail]
    rfl
  have zero := (MpmcQueue.word_faithful streamCapacity).zero
  have delivered := path.step ⟨.deliver (v := v) rest.pending,rfl⟩
  have called := delivered.step ⟨.push (rest.idle .feed) rfl,rfl⟩
  have loaded := called.step ⟨.access rfl (.pushLoad (MpmcQueue.State.move_self _ _ _)),rfl⟩
  have looked := loaded.step ⟨.access rfl (.pushFree (MpmcQueue.State.move_self _ _ _) ((zero _ _).mpr free)),by
    simpa [Crowded,occupied,MpmcQueue.State.move_other] using spare.trans_lt room⟩
  have ticket := looked.step ⟨.access rfl (.pushWon (MpmcQueue.State.move_self _ _ _) rfl),rfl⟩
  have copied := ticket.step ⟨.access rfl (.copyIn (MpmcQueue.State.move_self _ _ _)),rfl⟩
  have stored := copied.step ⟨.access rfl (.publish (MpmcQueue.State.move_self _ _ _)),rfl⟩
  have returned := stored.step ⟨.access rfl (.ret (MpmcQueue.State.move_self _ _ _)),rfl⟩
  have published := returned.step ⟨.publish (MpmcQueue.State.move_self _ _ _) rfl,rfl⟩
  have finished := published.step ⟨.finish (MpmcQueue.State.move_self _ _ _) rfl,rfl⟩
  refine ⟨_,_,finished,⟨rfl,?_,?_,?_⟩,?_⟩
  · intro t
    cases t with
    | feed => exact MpmcQueue.State.move_self _ _ _
    | engine => simpa [MpmcQueue.State.move_other] using rest.idle .engine
  · change (MpmcQueue.word streamCapacity).next s.queue.head = low (n+1)
    rw [rest.head]
    exact (MpmcQueue.low_next streamCapacity n).symm
  · simpa [popped,Event.pop] using rest.popped
  · simp [offered,List.filterMap_cons,Event.offer]

theorem fills_pass (f : Nat → T) (junk : Fin streamCapacity.size → T) (few : n ≤ 1024) :
    ∃ os s, Runs (RoomStep .fillCb) (initial (MpmcQueue.word streamCapacity) junk) os s ∧
      Resting os s n ∧ offered os = (List.range n).map f := by
  induction n with
  | zero => exact ⟨_,_,.nil,⟨rfl,fun _ => rfl,rfl,rfl⟩,rfl⟩
  | succ n ih =>
    obtain ⟨os,s,path,rest,offers⟩ := ih (Nat.le_of_succ_le few)
    obtain ⟨os',s',path',rest',offers'⟩ := fill_passes path rest few (f n)
    exact ⟨os',s',path',rest',by rw [offers',offers,List.range_succ,List.map_append]; rfl⟩

theorem fill_lost (path : Runs (RoomStep .fillCb) (initial (MpmcQueue.word streamCapacity) junk) os s)
    (rest : Resting os s 1024) (v : T) :
    ∃ os' s', Runs (Step (MpmcQueue.word streamCapacity) .fillCb) (initial (MpmcQueue.word streamCapacity) junk) os' s' ∧
      s'.pending = none ∧ published os' = published os++[v] ∧ accepted os' = accepted os ∧
      refused os' = refused os++[v] := by
  obtain ⟨⟨es,q,carried,queue⟩,_,_⟩ := runs_flow path
  obtain ⟨head,tail,idle⟩ := rest.tickets carried queue (Nat.le_refl _)
  have behind : (MpmcQueue.word streamCapacity).diff
      (s.queue.slots ((MpmcQueue.word streamCapacity).slot s.queue.head)).seq s.queue.head < 0 := by
    -- ticket 0 is still in the slot of ticket 1024
    have seq : seqAt id q 0 = 1 :=
      (carried.acc.inv.filled 0 (by simp [tail]) (by simp [head])
        (fun t pos writes => by rw [idle t] at writes; cases writes)).1
    have slot : streamCapacity.index q.head = streamCapacity.index 0 := by rw [head]; decide
    have old : (q.slots (streamCapacity.index q.head)).seq = 1 := by rw [slot]; exact seq
    rw [queue,MpmcQueue.State.map_head,MpmcQueue.low_slot,MpmcQueue.State.map_seq]
    simp only [unbounded]
    rw [old,head]
    decide
  have delivered := (path.weaken (fun _ _ _ step => step.1)).step (.deliver (v := v) rest.pending)
  have called := delivered.step (.push (rest.idle .feed) rfl)
  have loaded := called.step (.access rfl (.pushLoad (MpmcQueue.State.move_self _ _ _)))
  have looked := loaded.step (.access rfl (.pushFull (MpmcQueue.State.move_self _ _ _) behind))
  have returned := looked.step (.access rfl (.ret (MpmcQueue.State.move_self _ _ _)))
  have published := returned.step (.publish (MpmcQueue.State.move_self _ _ _) rfl)
  have finished := published.step (.finish (MpmcQueue.State.move_self _ _ _) rfl)
  refine ⟨_,_,finished,rfl,?_,?_,?_⟩
  · simp [EventPipeline.published,List.filterMap_cons,Event.publish]
  · simp [accepted,List.filterMap_cons,Event.accept]
  · simp [refused,List.filterMap_cons,Event.refuse]

end Lost

-- 1025 fills while the engine thread is held up; the last one is published to
-- the subscribers only.
def numbered (n : Nat) : Fill := {orderId := n}

theorem fill_published_not_accepted :
    ∃ os s, Runs (Step (MpmcQueue.word streamCapacity) .fillCb)
        (initial (MpmcQueue.word streamCapacity) (fun _ => numbered 0)) os s ∧ s.pending = none ∧
      published os = (List.range 1025).map numbered ∧ accepted os = (List.range 1024).map numbered ∧
      refused os = [numbered 1024] ∧ ¬ published os <+: accepted os := by
  obtain ⟨os,s,path,rest,offers⟩ := fills_pass numbered (fun _ => numbered 0) (Nat.le_refl 1024)
  obtain ⟨_,accepts,publishes⟩ := (runs_flow path).between rest.pending
  obtain ⟨⟨_,_,carried,_⟩,_,_⟩ := runs_flow path
  obtain ⟨os',s',path',pending,published',accepted',refused'⟩ := fill_lost path rest (numbered 1024)
  rw [publishes,offers] at published'
  rw [accepts,offers] at accepted'
  rw [carried.refuses] at refused'
  refine ⟨os',s',path',pending,?_,accepted',refused',?_⟩
  · have last : List.range 1025 = List.range 1024++[1024] := List.range_succ
    rw [published',last,List.map_append,List.map_singleton]
  · intro front
    have short := front.length_le
    rw [published',accepted',List.length_append,List.length_map,List.length_range] at short
    exact absurd short (by decide)

end Chronos.EventPipeline
