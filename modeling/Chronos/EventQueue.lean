import Chronos.EventPipeline

namespace Chronos.EventPipeline
open MpmcQueue (Capacity Arithmetic Local Result unbounded low values seqAt Accounted)

variable {T : Type}

-- One thread pushes and one pops: a position read from a counter is current,
-- and the ticket being popped is the last one taken. No try_push returns false.
def Lone (s : MpmcQueue.State Side Nat T streamCapacity) : Side → Local Nat T → Prop
  | .feed,.idle | .feed,.pushLoad _ | .feed,.pushCopy _ _ | .feed,.pushStore _ _
  | .feed,.returning (.pushed _ _) => True
  | .feed,.pushSeq _ pos | .feed,.pushCas _ pos => pos = s.head
  | .engine,.idle | .engine,.popLoad | .engine,.sizeHead _ | .engine,.sizeTail _ _
  | .engine,.returning .none | .engine,.returning (.size _) | .engine,.returning (.isEmpty _) => True
  | .engine,.popSeq pos | .engine,.popCas pos => pos = s.tail
  | .engine,.popCopy pos | .engine,.popStore pos _ | .engine,.returning (.popped pos _) => pos+1 = s.tail
  | _,_ => False

theorem Lone.frame {s s' : MpmcQueue.State Side Nat T streamCapacity} {t : Side} {l : Local Nat T} (lone : Lone s t l)
    (head : t = .feed → s'.head = s.head) (tail : t = .engine → s'.tail = s.tail) : Lone s' t l := by
  cases t with
  | feed =>
    cases l with
    | pushSeq v pos | pushCas v pos => exact Eq.trans lone (head rfl).symm
    | returning result => cases result <;> exact lone
    | _ => exact lone
  | engine =>
    cases l with
    | popSeq pos | popCas pos => exact Eq.trans lone (tail rfl).symm
    | popCopy pos | popStore pos v => exact Eq.trans lone (tail rfl).symm
    | returning result =>
      cases result with
      | popped pos v => exact Eq.trans lone (tail rfl).symm
      | _ => exact lone
    | _ => exact lone

theorem Lone.last {s : MpmcQueue.State Side Nat T streamCapacity} {l : Local Nat T} (lone : Lone s .engine l)
    (reads : l.reading = some p) : p+1 = s.tail := by
  cases l <;> cases reads <;> exact lone

def waiting : Local W T → List T
  | .pushLoad v | .pushSeq v _ | .pushCas v _ => [v]
  | _ => []

def won : Local W T → List T
  | .pushCopy v _ | .pushStore v _ | .returning (.pushed v _) => [v]
  | _ => []

def held : Local W T → Nat
  | .popCopy _ | .popStore _ _ | .returning (.popped _ _) => 1
  | _ => 0

def Free (s : MpmcQueue.State Side Nat T streamCapacity) (e : MpmcQueue.Event Side Nat T) : Prop :=
  ∀ v pos, s.threads .feed = .pushSeq v pos → e.thread = .feed → (s.slots (streamCapacity.index pos)).seq = pos

section Lone
variable {s s' : MpmcQueue.State Side Nat T streamCapacity} {e : MpmcQueue.Event Side Nat T}

theorem lone_feed (mine : Lone s .feed (s.threads .feed)) (step : MpmcQueue.Step (unbounded streamCapacity) s e s')
    (moves : e.thread = .feed) (own : Allowed e ∨ ∃ v, e = .call .feed (.tryPush v)) (free : Free s e) :
    Lone s' .feed (s'.threads .feed) ∧ s'.tail = s.tail := by
  cases step with
  | call idle =>
    obtain rfl : _ = Side.feed := moves
    rcases own with own | ⟨v,own⟩
    · cases own
    · cases own
      rw [MpmcQueue.State.move_self]
      exact ⟨trivial,rfl⟩
  | pushLoad at_ | pushLost at_ =>
    obtain rfl : _ = Side.feed := moves
    rw [MpmcQueue.State.move_self]
    exact ⟨rfl,rfl⟩
  | pushFree at_ seen =>
    obtain rfl : _ = Side.feed := moves
    rw [at_] at mine
    rw [MpmcQueue.State.move_self]
    exact ⟨mine,rfl⟩
  | pushFull at_ seen | pushBehind at_ seen =>
    obtain rfl : _ = Side.feed := moves
    have same := free _ _ at_ rfl
    simp only [unbounded] at seen
    omega
  | pushWon at_ seen | copyIn at_ | publish at_ =>
    obtain rfl : _ = Side.feed := moves
    rw [MpmcQueue.State.move_self]
    exact ⟨trivial,rfl⟩
  | ret at_ =>
    obtain rfl : _ = Side.feed := moves
    rw [MpmcQueue.State.move_self]
    exact ⟨trivial,rfl⟩
  | popLoad at_ | popReady at_ seen | popNone at_ seen | popBehind at_ seen | popWon at_ seen | popLost at_
  | copyOut at_ | release at_ | sizeHead at_ | sizeTail at_ =>
    obtain rfl : _ = Side.feed := moves
    rw [at_] at mine
    exact mine.elim

theorem lone_engine (mine : Lone s .engine (s.threads .engine))
    (step : MpmcQueue.Step (unbounded streamCapacity) s e s') (moves : e.thread = .engine) (own : Allowed e) :
    Lone s' .engine (s'.threads .engine) ∧ s'.head = s.head := by
  cases step with
  | call idle =>
    rename_i op
    obtain rfl : _ = Side.engine := moves
    rw [MpmcQueue.State.move_self]
    cases op with
    | tryPush => cases own
    | tryPop | size | empty => exact ⟨trivial,rfl⟩
  | popLoad at_ | popWon at_ seen | popLost at_ =>
    obtain rfl : _ = Side.engine := moves
    rw [MpmcQueue.State.move_self]
    exact ⟨rfl,rfl⟩
  | popReady at_ seen | copyOut at_ | release at_ =>
    obtain rfl : _ = Side.engine := moves
    rw [at_] at mine
    rw [MpmcQueue.State.move_self]
    exact ⟨mine,rfl⟩
  | popNone at_ seen | popBehind at_ seen | sizeHead at_ | ret at_ =>
    obtain rfl : _ = Side.engine := moves
    rw [MpmcQueue.State.move_self]
    exact ⟨trivial,rfl⟩
  | sizeTail at_ =>
    obtain rfl : _ = Side.engine := moves
    rw [MpmcQueue.State.move_self]
    unfold MpmcQueue.sized
    split <;> exact ⟨trivial,rfl⟩
  | pushLoad at_ | pushFree at_ seen | pushFull at_ seen | pushBehind at_ seen | pushWon at_ seen | pushLost at_
  | copyIn at_ | publish at_ =>
    obtain rfl : _ = Side.engine := moves
    rw [at_] at mine
    exact mine.elim

theorem lone_step (lone : ∀ t, Lone s t (s.threads t)) (step : MpmcQueue.Step (unbounded streamCapacity) s e s')
    (own : Allowed e ∨ ∃ v, e = .call .feed (.tryPush v)) (free : Free s e) (t : Side) : Lone s' t (s'.threads t) := by
  cases moves : e.thread with
  | feed =>
    obtain ⟨here,tail⟩ := lone_feed (lone .feed) step moves own free
    cases t with
    | feed => exact here
    | engine =>
      rw [step.frame (by rw [moves]; decide)]
      exact (lone .engine).frame (by simp) (fun _ => tail)
  | engine =>
    have own : Allowed e := by
      rcases own with own | ⟨v,rfl⟩
      · exact own
      · cases moves
    obtain ⟨here,head⟩ := lone_engine (lone .engine) step moves own
    cases t with
    | feed =>
      rw [step.frame (by rw [moves]; decide)]
      exact (lone .feed).frame (fun _ => head) (by simp)
    | engine => exact here

end Lone

section Snoc
variable (es : List (Event W T)) (e : Event W T)

theorem offered_snoc : offered (es++[e]) = offered es++e.offer.toList := filterMap_snoc _ _ _
theorem accepted_snoc : accepted (es++[e]) = accepted es++e.accept.toList := filterMap_snoc _ _ _
theorem refused_snoc : refused (es++[e]) = refused es++e.refuse.toList := filterMap_snoc _ _ _
theorem popped_snoc : popped (es++[e]) = popped es++e.pop.toList := filterMap_snoc _ _ _
theorem published_snoc : published (es++[e]) = published es++e.publish.toList := filterMap_snoc _ _ _
theorem logged_snoc : logged (es++[e]) = logged es++e.log.toList := filterMap_snoc _ _ _

end Snoc

-- What the queue has taken in and given out, by where the two threads stand.
-- `os` are the events of the pipeline, `es` those of the queue alone.
structure Carried (os : List (Event (BitVec 64) T)) (es : List (MpmcQueue.Event Side Nat T))
    (s : MpmcQueue.State Side Nat T streamCapacity) : Prop where
  acc : Accounted id es s
  lone : ∀ t, Lone s t (s.threads t)
  offers : offered os = values es++waiting (s.threads .feed)
  accepts : values es = accepted os++won (s.threads .feed)
  pops : popped os <+: values es
  taken : (popped os).length+held (s.threads .engine) = s.tail
  refuses : refused os = []

theorem prefix_snoc {xs ys : List T} {v : T} (front : xs <+: ys) (next : ys[xs.length]? = some v) : xs++[v] <+: ys := by
  obtain ⟨rest,rfl⟩ := front
  rw [List.getElem?_append_right (Nat.le_refl _),Nat.sub_self] at next
  cases rest with
  | nil => cases next
  | cons w rest =>
    cases next
    exact ⟨rest,by simp⟩

section Carried
variable {s s' : MpmcQueue.State Side Nat T streamCapacity} {e : MpmcQueue.Event Side Nat T}
variable {os : List (Event (BitVec 64) T)} {es : List (MpmcQueue.Event Side Nat T)}

theorem Carried.feed (carried : Carried os es s) (step : MpmcQueue.Step (unbounded streamCapacity) s e s')
    (moves : e.thread = .feed) (own : Allowed e ∨ ∃ v, e = .call .feed (.tryPush v)) (free : Free s e) :
    offered (os++[.queue (e.map low)]) = values (es++[e])++waiting (s'.threads .feed) ∧
      values (es++[e]) = accepted (os++[.queue (e.map low)])++won (s'.threads .feed) ∧
      popped (os++[.queue (e.map low)]) = popped os ∧ refused (os++[.queue (e.map low)]) = [] := by
  have offers := carried.offers
  have accepts := carried.accepts
  have refuses := carried.refuses
  have mine := carried.lone .feed
  rw [offered_snoc,accepted_snoc,popped_snoc,refused_snoc,MpmcQueue.values_snoc]
  cases step with
  | call idle =>
    obtain rfl : _ = Side.feed := moves
    rw [idle] at offers accepts
    simp only [waiting,won,List.append_nil] at offers accepts
    rcases own with own | ⟨v,own⟩
    · cases own
    · cases own
      simp [Event.offer,Event.accept,Event.refuse,Event.pop,MpmcQueue.Event.map,MpmcQueue.Event.pushWin,
        waiting,won,MpmcQueue.entry,offers,accepts,refuses]
  | pushLoad at_ | pushFree at_ seen | pushWon at_ seen | pushLost at_ | copyIn at_ | publish at_ =>
    obtain rfl : _ = Side.feed := moves
    rw [at_] at offers accepts
    simp only [waiting,won,List.append_nil] at offers accepts
    simp [Event.offer,Event.accept,Event.refuse,Event.pop,MpmcQueue.Event.map,MpmcQueue.Event.pushWin,
      waiting,won,offers,accepts,refuses]
  | pushFull at_ seen | pushBehind at_ seen =>
    obtain rfl : _ = Side.feed := moves
    have same := free _ _ at_ rfl
    simp only [unbounded] at seen
    omega
  | ret at_ =>
    rename_i result
    obtain rfl : _ = Side.feed := moves
    rw [at_] at offers accepts mine
    cases result with
    | pushed v pos =>
      simp only [waiting,won,List.append_nil] at offers accepts
      simp [Event.offer,Event.accept,Event.refuse,Event.pop,MpmcQueue.Event.map,MpmcQueue.Event.pushWin,
        MpmcQueue.Result.map,waiting,won,offers,accepts,refuses]
    | full | popped | none | size | isEmpty => exact mine.elim
  | popLoad at_ | popReady at_ seen | popNone at_ seen | popBehind at_ seen | popWon at_ seen | popLost at_
  | copyOut at_ | release at_ | sizeHead at_ | sizeTail at_ =>
    obtain rfl : _ = Side.feed := moves
    rw [at_] at mine
    exact mine.elim

theorem Carried.engine (carried : Carried os es s) (step : MpmcQueue.Step (unbounded streamCapacity) s e s')
    (moves : e.thread = .engine) (own : Allowed e) :
    (offered (os++[.queue (e.map low)]) = offered os ∧ accepted (os++[.queue (e.map low)]) = accepted os ∧
      refused (os++[.queue (e.map low)]) = refused os ∧ values (es++[e]) = values es) ∧
      popped (os++[.queue (e.map low)]) <+: values es ∧
      (popped (os++[.queue (e.map low)])).length+held (s'.threads .engine) = s'.tail := by
  have pops := carried.pops
  have taken := carried.taken
  have mine := carried.lone .engine
  have knows := carried.acc.inv.known .engine
  rw [offered_snoc,accepted_snoc,popped_snoc,refused_snoc,MpmcQueue.values_snoc]
  cases step with
  | call idle =>
    rename_i op
    obtain rfl : _ = Side.engine := moves
    rw [idle] at taken
    cases op with
    | tryPush => cases own
    | tryPop | size | empty =>
      simpa [Event.offer,Event.accept,Event.refuse,Event.pop,MpmcQueue.Event.map,MpmcQueue.Event.pushWin,
        MpmcQueue.entry,held] using And.intro pops taken
  | popWon at_ seen =>
    obtain rfl : _ = Side.engine := moves
    rw [at_] at taken
    simp only [held] at taken
    simp [Event.offer,Event.accept,Event.refuse,Event.pop,MpmcQueue.Event.map,MpmcQueue.Event.pushWin,held,pops]
    simp [unbounded]
    omega
  | popLoad at_ | popReady at_ seen | popNone at_ seen | popBehind at_ seen | popLost at_
  | copyOut at_ | release at_ | sizeHead at_ =>
    obtain rfl : _ = Side.engine := moves
    rw [at_] at taken
    simpa [Event.offer,Event.accept,Event.refuse,Event.pop,MpmcQueue.Event.map,MpmcQueue.Event.pushWin,held]
      using And.intro pops taken
  | sizeTail at_ =>
    obtain rfl : _ = Side.engine := moves
    rw [at_] at taken
    simp only [held] at taken
    unfold MpmcQueue.sized
    split <;> simpa [Event.offer,Event.accept,Event.refuse,Event.pop,MpmcQueue.Event.map,MpmcQueue.Event.pushWin,held]
      using And.intro pops taken
  | ret at_ =>
    rename_i result
    obtain rfl : _ = Side.engine := moves
    rw [at_] at taken mine knows
    cases result with
    | popped pos v =>
      have next : (popped os).length = pos := by
        simp only [held,Lone] at taken mine
        omega
      have value : (values es)[(popped os).length]? = some v := by rw [next]; exact knows
      have longer := prefix_snoc pops value
      simpa [Event.offer,Event.accept,Event.refuse,Event.pop,MpmcQueue.Event.map,MpmcQueue.Event.pushWin,
        MpmcQueue.Result.map,held] using And.intro longer taken
    | none | size | isEmpty =>
      simpa [Event.offer,Event.accept,Event.refuse,Event.pop,MpmcQueue.Event.map,MpmcQueue.Event.pushWin,
        MpmcQueue.Result.map,held] using And.intro pops taken
    | pushed | full => exact mine.elim
  | pushLoad at_ | pushFree at_ seen | pushFull at_ seen | pushBehind at_ seen | pushWon at_ seen | pushLost at_
  | copyIn at_ | publish at_ =>
    obtain rfl : _ = Side.engine := moves
    rw [at_] at mine
    exact mine.elim

theorem Carried.step (carried : Carried os es s) (step : MpmcQueue.Step (unbounded streamCapacity) s e s')
    (own : Allowed e ∨ ∃ v, e = .call .feed (.tryPush v)) (free : Free s e) :
    Carried (os++[.queue (e.map low)]) (es++[e]) s' := by
  have faithful := MpmcQueue.unbounded_faithful streamCapacity ((MpmcQueue.pushWins (es++[e])).length+streamCapacity.size+1)
  have acc := carried.acc.step faithful (streamCapacity.two_le (by decide))
    (by simp only [MpmcQueue.Fits]; omega) step
  have lone := lone_step carried.lone step own free
  cases moves : e.thread with
  | feed =>
    obtain ⟨offers,accepts,pops,refuses⟩ := carried.feed step moves own free
    obtain ⟨_,tail⟩ := lone_feed (carried.lone .feed) step moves own free
    refine ⟨acc,lone,offers,accepts,?_,?_,refuses⟩
    · rw [pops,MpmcQueue.values_snoc]
      exact carried.pops.trans (List.prefix_append _ _)
    · rw [pops,step.frame (by rw [moves]; decide),tail]
      exact carried.taken
  | engine =>
    have own : Allowed e := by
      rcases own with own | ⟨v,rfl⟩
      · exact own
      · cases moves
    obtain ⟨⟨offers,accepts,refuses,values⟩,pops,taken⟩ := carried.engine step moves own
    have feed : s'.threads .feed = s.threads .feed := step.frame (by rw [moves]; decide)
    refine ⟨acc,lone,?_,?_,values ▸ pops,taken,refuses.trans carried.refuses⟩
    · rw [offers,values,feed]
      exact carried.offers
    · rw [accepts,values,feed]
      exact carried.accepts

theorem Carried.quiet {o : Event (BitVec 64) T} (carried : Carried os es s) (offer : o.offer = none)
    (accept : o.accept = none) (refuse : o.refuse = none) (pop : o.pop = none) : Carried (os++[o]) es s := by
  have offers : offered (os++[o]) = offered os := by rw [offered_snoc,offer,Option.toList_none,List.append_nil]
  have accepts : accepted (os++[o]) = accepted os := by rw [accepted_snoc,accept,Option.toList_none,List.append_nil]
  have refuses : refused (os++[o]) = refused os := by rw [refused_snoc,refuse,Option.toList_none,List.append_nil]
  have pops : popped (os++[o]) = popped os := by rw [popped_snoc,pop,Option.toList_none,List.append_nil]
  exact ⟨carried.acc,carried.lone,offers ▸ carried.offers,accepts ▸ carried.accepts,pops ▸ carried.pops,
    pops ▸ carried.taken,refuses ▸ carried.refuses⟩

-- A lone thread's positions are current, so the machine words follow the tickets.
theorem Carried.recent (carried : Carried os es s) (t : Side) : MpmcQueue.Recent s (s.threads t) := by
  have size : streamCapacity.size = 1024 := rfl
  have mine := carried.lone t
  cases at_ : s.threads t with
  | pushSeq v pos | pushCas v pos =>
    rw [at_] at mine
    cases t with
    | feed =>
      simp only [Lone] at mine
      simp only [MpmcQueue.Recent]
      omega
    | engine => exact mine.elim
  | popSeq pos | popCas pos =>
    rw [at_] at mine
    cases t with
    | feed => exact mine.elim
    | engine =>
      simp only [Lone] at mine
      simp only [MpmcQueue.Recent]
      omega
  | _ => trivial

theorem Carried.occupied (carried : Carried os es s) : occupied (s.map low) =
    s.head-s.tail+(if (s.threads .engine).reading.isSome then 1 else 0) := by
  have order : s.tail ≤ s.head := carried.acc.inv.order
  have room : s.head ≤ s.tail+streamCapacity.size := carried.acc.inv.room
  have size : streamCapacity.size = 1024 := rfl
  have words : (low s.head-low s.tail).toNat = s.head-s.tail := by
    simp only [low,BitVec.toNat_sub,BitVec.toNat_ofNat]
    omega
  have reads : ((s.threads .engine).map low).reading.isSome = (s.threads .engine).reading.isSome := by
    cases s.threads .engine <;> rfl
  simp only [EventPipeline.occupied,MpmcQueue.State.map_head,MpmcQueue.State.map_tail,
    MpmcQueue.State.map_threads,words,reads]

theorem Carried.free (carried : Carried os es s) (step : MpmcQueue.Step (unbounded streamCapacity) s e s')
    (room : ∀ pos seq, e = .loadSeq .feed pos seq → EventPipeline.occupied (s.map low) < 1024) : Free s e := by
  intro v pos at_ moves
  have size : streamCapacity.size = 1024 := rfl
  have current := carried.lone .feed
  rw [at_] at current
  have inv := carried.acc.inv
  have order : s.tail ≤ s.head := inv.order
  have loads : ∃ pos seq, e = .loadSeq .feed pos seq := by
    cases step with
    | pushFree | pushFull | pushBehind | popReady | popNone | popBehind =>
      obtain rfl : _ = Side.feed := moves
      exact ⟨_,_,rfl⟩
    | call here | pushLoad here | pushWon here | pushLost here | copyIn here | publish here | popLoad here
    | popWon here | popLost here | copyOut here | release here | sizeHead here | sizeTail here | ret here =>
      obtain rfl : _ = Side.feed := moves
      rw [at_] at here
      cases here
  obtain ⟨q,seq,rfl⟩ := loads
  have spare := room q seq rfl
  rw [carried.occupied] at spare
  obtain rfl : pos = s.head := current
  refine inv.vacant s.head (Nat.le_refl _) (by simp only [id]; omega) ?_
  intro u p reads same
  have mine := carried.lone u
  cases u with
  | feed =>
    rw [at_] at reads
    cases reads
  | engine =>
    rw [reads,Option.isSome_some,if_pos rfl] at spare
    have last := mine.last reads
    simp only [id] at same
    omega

end Carried

section Lift
variable {os : List (Event (BitVec 64) T)}

theorem allowed_map {e : MpmcQueue.Event Side Nat T} : Allowed (e.map low) = Allowed e := by
  cases e with
  | call t op => cases t <;> cases op <;> rfl
  | _ => rfl

theorem Carried.lift {q : MpmcQueue.State Side Nat T streamCapacity} {es : List (MpmcQueue.Event Side Nat T)}
    {e : MpmcQueue.Event Side (BitVec 64) T} {queue : MpmcQueue.State Side (BitVec 64) T streamCapacity}
    (carried : Carried os es q) (step : MpmcQueue.Step (MpmcQueue.word streamCapacity) (q.map low) e queue)
    (own : Allowed e ∨ ∃ v, e = .call .feed (.tryPush v))
    (room : ∀ pos seq, e = .loadSeq .feed pos seq → EventPipeline.occupied (q.map low) < 1024) :
    ∃ es' q', Carried (os++[.queue e]) es' q' ∧ queue = q'.map low := by
  obtain ⟨e,q',taken,rfl,rfl⟩ := MpmcQueue.Step.of_low carried.acc.inv (by decide) (carried.recent e.thread) step
  have own : Allowed e ∨ ∃ v, e = .call .feed (.tryPush v) := by
    rcases own with own | ⟨v,own⟩
    · exact .inl (allowed_map ▸ own)
    · refine .inr ⟨v,?_⟩
      cases e <;> simp only [MpmcQueue.Event.map,reduceCtorEq] at own
      cases own
      rfl
  have free := carried.free taken (fun pos seq loads => room (low pos) (low seq) (by rw [loads]; rfl))
  exact ⟨es++[e],q',carried.step taken own free,rfl⟩

theorem allowed_offer {e : MpmcQueue.Event Side (BitVec 64) T} (own : Allowed e) :
    (Event.queue e).offer = none := by
  cases e with
  | call t op => cases t <;> cases op <;> first | rfl | cases own
  | _ => rfl

theorem allowed_idle {e : MpmcQueue.Event Side (BitVec 64) T} {q q' : MpmcQueue.State Side (BitVec 64) T streamCapacity}
    (own : Allowed e) (step : MpmcQueue.Step (MpmcQueue.word streamCapacity) q e q')
    (idle : q.threads .feed = .idle) : q'.threads .feed = .idle := by
  cases moves : e.thread with
  | engine => rw [step.frame (by rw [moves]; decide)]; exact idle
  | feed =>
    cases step with
    | call =>
      obtain rfl : _ = Side.feed := moves
      cases own
    | pushFree here | pushFull here | pushBehind here | popReady here | popNone here | popBehind here
    | pushLoad here | pushWon here | pushLost here | copyIn here | publish here | popLoad here
    | popWon here | popLost here | copyOut here | release here | sizeHead here | sizeTail here | ret here =>
      obtain rfl : _ = Side.feed := moves
      rw [idle] at here
      cases here

theorem inside (l : Local W T) : won l++waiting l = [] ∨ ∃ v, won l++waiting l = [v] := by
  cases l with
  | returning result => cases result <;> simp [won,waiting]
  | _ => simp [won,waiting]

theorem Carried.idle {q : MpmcQueue.State Side Nat T streamCapacity} {es : List (MpmcQueue.Event Side Nat T)}
    (carried : Carried os es q) (back : (q.map low).threads .feed = .idle) :
    values es = offered os ∧ accepted os = offered os := by
  have idle : q.threads .feed = .idle := by
    cases here : q.threads .feed <;> simp [here,Local.map] at back
    rfl
  have offers := carried.offers
  have accepts := carried.accepts
  rw [idle] at offers accepts
  simp only [waiting,won,List.append_nil] at offers accepts
  exact ⟨offers.symm,by rw [offers,accepts]⟩

theorem Carried.crowded {q q' : MpmcQueue.State Side Nat T streamCapacity} {es : List (MpmcQueue.Event Side Nat T)}
    {pos seq : Nat} (carried : Carried os es q)
    (step : MpmcQueue.Step (unbounded streamCapacity) q (.loadSeq .feed pos seq) q')
    (full : 1024 ≤ EventPipeline.occupied (q.map low)) : ∃ v, q'.threads .feed = .returning (.full v) := by
  have inv := carried.acc.inv
  have least := streamCapacity.two_le (by decide)
  have size : streamCapacity.size = 1024 := rfl
  have current := carried.lone .feed
  rw [carried.occupied] at full
  -- the slot of the next ticket is not free
  have taken : seqAt id q q.head ≠ q.head := by
    intro free
    have room : q.head < q.tail+streamCapacity.size := inv.free_room least free
    split at full
    · rename_i reads
      obtain ⟨p,reads⟩ := Option.isSome_iff_exists.mp reads
      have near : q.head < p+streamCapacity.size := inv.free_unread least free reads
      have last := (carried.lone .engine).last reads
      omega
    · omega
  have below : seqAt id q q.head < q.head := by
    have order : q.tail ≤ q.head := inv.order
    have room : q.head ≤ q.tail+streamCapacity.size := inv.room
    by_cases lap : q.head < q.tail+streamCapacity.size
    · rcases inv.seq_free (Nat.le_refl _) lap with same | same
      · exact absurd same taken
      · simp only [id] at same
        omega
    · have same : seqAt id q q.head = seqAt id q q.tail := by
        rw [show q.head = q.tail+streamCapacity.size by omega]
        simp [seqAt]
      have := inv.seq_pushed (Nat.le_refl _) (show id q.tail < id q.head by simp only [id]; omega)
      simp only [id] at this
      omega
  cases step with
  | pushFree here seen | pushFull here seen | pushBehind here seen =>
    rw [here] at current
    obtain rfl : pos = q.head := current
    simp only [seqAt,unbounded,id] at below seen
    first
      | exact ⟨_,MpmcQueue.State.move_self _ _ _⟩
      | omega
  | popReady here | popNone here | popBehind here =>
    rw [here] at current
    exact current.elim

end Lift

end Chronos.EventPipeline
