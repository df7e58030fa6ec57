import Chronos.MpmcInvariant

namespace Chronos.MpmcQueue
variable {Tid W T : Type} {c : Capacity} {A : Arithmetic W c} {val : W → Nat} {half : Nat}
variable {s s' : State Tid W T c} {es : List (Event Tid W T)} {e : Event Tid W T}

section Threads
variable [DecidableEq Tid] [DecidableEq W]

theorem Step.frame (step : Step A s e s') (other : u ≠ e.thread) : s'.threads u = s.threads u := by
  cases step <;> exact State.move_other _ _ other

theorem Step.head (step : Step A s e s') :
    s'.head = s.head ∧ e.pushWin = none ∨
      ∃ t v, e.pushWin = some (t,s.head,v) ∧ s'.head = A.next s.head := by
  cases step
  case pushWon v at_ seen => subst seen; exact .inr ⟨_,v,rfl,rfl⟩
  all_goals exact .inl ⟨rfl,rfl⟩

theorem Step.tail (step : Step A s e s') :
    s'.tail = s.tail ∧ e.popWin = none ∨
      ∃ t, e.popWin = some (t,s.tail) ∧ s'.tail = A.next s.tail := by
  cases step
  case popWon at_ seen => subst seen; exact .inr ⟨_,rfl,rfl⟩
  all_goals exact .inl ⟨rfl,rfl⟩

end Threads

def InOrder (val : W → Nat) (es : List (Event Tid W T)) (s : State Tid W T c) : Prop :=
  (pushWins es).map (fun w => val w.2.1) = List.range (val s.head) ∧
    (popWins es).map (fun w => val w.2) = List.range (val s.tail)

theorem InOrder.step [DecidableEq Tid] [DecidableEq W] (faithful : Faithful A val half)
    (roomHead : val s.head+1 < 2*half) (roomTail : val s.tail+1 < 2*half)
    (ordered : InOrder val es s) (step : Step A s e s') : InOrder val (es++[e]) s' := by
  obtain ⟨pushes,pops⟩ := ordered
  constructor
  · rw [pushWins_snoc]
    rcases step.head with ⟨same,quiet⟩ | ⟨t,v,won,next⟩
    · simpa [quiet,same] using pushes
    · simp [won,next,faithful.next _ roomHead,List.range_succ,pushes]
  · rw [popWins_snoc]
    rcases step.tail with ⟨same,quiet⟩ | ⟨t,won,next⟩
    · simpa [quiet,same] using pops
    · simp [won,next,faithful.next _ roomTail,List.range_succ,pops]

theorem InOrder.head_lt (ordered : InOrder val es s) (won : (t,pos,v) ∈ pushWins es) : val pos < val s.head := by
  rw [← List.mem_range,← ordered.1]
  exact List.mem_map.mpr ⟨_,won,rfl⟩

theorem InOrder.push_at (ordered : InOrder val es s) (won : (t,pos,v) ∈ pushWins es) :
    (pushWins es)[val pos]? = some (t,pos,v) := by
  obtain ⟨i,found⟩ := List.mem_iff_getElem?.mp won
  have place : ((pushWins es).map (fun w => val w.2.1))[i]? = some (val pos) := by simp [found]
  rw [ordered.1,List.getElem?_eq_some_iff] at place
  obtain ⟨_,same⟩ := place
  rw [List.getElem_range] at same
  exact same ▸ found

theorem InOrder.value_at (ordered : InOrder val es s) (won : (t,pos,v) ∈ pushWins es) :
    (values es)[val pos]? = some v := by simp [values,ordered.push_at won]

theorem InOrder.pushed_by (faithful : Faithful A val half) (ordered : InOrder val es s)
    (held : (values es)[val pos]? = some v) : ∃ t, (t,pos,v) ∈ pushWins es := by
  simp only [values,List.getElem?_map,Option.map_eq_some_iff] at held
  obtain ⟨⟨t,q,w⟩,found,rfl⟩ := held
  have place : ((pushWins es).map (fun w => val w.2.1))[val pos]? = some (val q) := by simp [found]
  rw [ordered.1,List.getElem?_eq_some_iff] at place
  obtain ⟨_,same⟩ := place
  rw [List.getElem_range] at same
  obtain rfl := faithful.injective _ _ same
  exact ⟨t,List.mem_of_getElem? found⟩

section Programs
variable [DecidableEq Tid]

def pushCalls (t : Tid) (es : List (Event Tid W T)) : List T :=
  es.filterMap fun
    | .call u (.tryPush v) => if u = t then some v else none
    | _ => none

def pushesBy (t : Tid) (es : List (Event Tid W T)) : List T :=
  (pushWins es).filterMap fun w => if w.1 = t then some w.2.2 else none

theorem pushCalls_call (t : Tid) (v : T) (es : List (Event Tid W T)) :
    pushCalls t (es++[.call t (.tryPush v)]) = pushCalls t es++[v] := by simp [pushCalls]

theorem pushCalls_other (quiet : ∀ v, e ≠ .call t (.tryPush v)) :
    pushCalls t (es++[e]) = pushCalls t es := by
  simp only [pushCalls,List.filterMap_append]
  cases e
  case call u op =>
    cases op
    case tryPush v =>
      have other : u ≠ t := fun same => quiet v (by rw [same])
      simp [other]
    all_goals simp
  all_goals simp

theorem pushesBy_win (t : Tid) (pos : W) (v : T) (es : List (Event Tid W T)) :
    pushesBy t (es++[.pushWon t pos v]) = pushesBy t es++[v] := by
  simp [pushesBy,pushWins_snoc,Event.pushWin]

theorem pushesBy_other (quiet : ∀ pos v, e ≠ .pushWon t pos v) :
    pushesBy t (es++[e]) = pushesBy t es := by
  simp only [pushesBy,pushWins_snoc]
  cases e
  case pushWon u pos v =>
    have other : u ≠ t := fun same => quiet pos v (by rw [same])
    simp [Event.pushWin,other]
  all_goals simp [Event.pushWin]

def Owns (es : List (Event Tid W T)) (t : Tid) : Local W T → Prop
  | .pushLoad v | .pushSeq v _ | .pushCas v _ =>
    ∃ front, pushCalls t es = front++[v] ∧ (pushesBy t es).Sublist front
  | .pushCopy v pos | .pushStore v pos | .returning (.pushed v pos) =>
    (t,pos,v) ∈ pushWins es ∧ (pushesBy t es).Sublist (pushCalls t es)
  | .popCopy pos | .popStore pos _ | .returning (.popped pos _) =>
    (t,pos) ∈ popWins es ∧ (pushesBy t es).Sublist (pushCalls t es)
  | _ => (pushesBy t es).Sublist (pushCalls t es)

theorem Owns.sublist {l : Local W T} (owns : Owns es t l) : (pushesBy t es).Sublist (pushCalls t es) := by
  have pending : ∀ v, (∃ front, pushCalls t es = front++[v] ∧ (pushesBy t es).Sublist front) →
      (pushesBy t es).Sublist (pushCalls t es) := by
    rintro v ⟨front,called,won⟩
    rw [called]
    exact won.trans (List.sublist_append_left _ _)
  cases l with
  | pushLoad v | pushSeq v _ | pushCas v _ => exact pending v owns
  | pushCopy | pushStore | popCopy | popStore => exact owns.2
  | idle | popLoad | popSeq | popCas | sizeHead | sizeTail => exact owns
  | returning result =>
    cases result with
    | pushed | popped => exact owns.2
    | full | none | size | isEmpty => exact owns

theorem Owns.quiet {l : Local W T} (owns : Owns es t l) (calls : ∀ v, e ≠ .call t (.tryPush v))
    (wins : ∀ pos v, e ≠ .pushWon t pos v) : Owns (es++[e]) t l := by
  have called : pushCalls t (es++[e]) = pushCalls t es := pushCalls_other calls
  have won : pushesBy t (es++[e]) = pushesBy t es := pushesBy_other wins
  have pushGrown : ∀ {w}, w ∈ pushWins es → w ∈ pushWins (es++[e]) := by
    intro w member; rw [pushWins_snoc]; exact List.mem_append_left _ member
  have popGrown : ∀ {w}, w ∈ popWins es → w ∈ popWins (es++[e]) := by
    intro w member; rw [popWins_snoc]; exact List.mem_append_left _ member
  cases l with
  | pushLoad | pushSeq | pushCas => simpa only [Owns,called,won] using owns
  | pushCopy | pushStore => exact ⟨pushGrown owns.1,by rw [called,won]; exact owns.2⟩
  | popCopy | popStore => exact ⟨popGrown owns.1,by rw [called,won]; exact owns.2⟩
  | idle | popLoad | popSeq | popCas | sizeHead | sizeTail => simpa only [Owns,called,won] using owns
  | returning result =>
    cases result with
    | pushed => exact ⟨pushGrown owns.1,by rw [called,won]; exact owns.2⟩
    | popped => exact ⟨popGrown owns.1,by rw [called,won]; exact owns.2⟩
    | full | none | size | isEmpty => simpa only [Owns,called,won] using owns

theorem owns_step [DecidableEq W] (owns : ∀ t, Owns es t (s.threads t)) (step : Step A s e s') (u : Tid) :
    Owns (es++[e]) u (s'.threads u) := by
  by_cases other : u ≠ e.thread
  · rw [step.frame other]
    exact (owns u).quiet (fun v same => other (by rw [same]; rfl)) (fun pos v same => other (by rw [same]; rfl))
  · have mine := owns u
    obtain rfl : u = e.thread := not_not.mp other
    cases step with
    | call free =>
      rename_i t op
      simp only [Event.thread] at mine ⊢
      have before := mine.sublist
      have won : pushesBy t (es++[.call t op]) = pushesBy t es := pushesBy_other (by simp)
      have called : (∀ v, op ≠ .tryPush v) → pushCalls t (es++[.call t op]) = pushCalls t es :=
        fun quiet => pushCalls_other (by simpa using quiet)
      rw [State.move_self]
      cases op with
      | tryPush v => exact ⟨_,pushCalls_call t v es,won ▸ before⟩
      | tryPop | size | empty =>
        simp only [entry,Owns,called (by simp),won]
        exact before
    | pushWon at_ seen =>
      rename_i pos t v
      simp only [Event.thread] at mine ⊢
      rw [at_] at mine
      obtain ⟨front,called,won⟩ := mine
      rw [State.move_self]
      refine ⟨by simp [pushWins_snoc,Event.pushWin],?_⟩
      have same : pushCalls t (es++[.pushWon t pos v]) = pushCalls t es := pushCalls_other (by simp)
      rw [pushesBy_win,same,called]
      exact won.append (List.Sublist.refl _)
    | popWon at_ seen =>
      rename_i pos t
      simp only [Event.thread] at mine ⊢
      have before := (mine.quiet (e:=.popWon t pos) (by simp) (by simp)).sublist
      rw [State.move_self]
      exact ⟨by simp [popWins_snoc,Event.popWin],before⟩
    | pushLoad at_ | pushFree at_ seen | pushBehind at_ seen | pushLost at_ | copyIn at_ | publish at_
    | copyOut at_ | release at_ =>
      simp only [Event.thread] at mine ⊢
      rw [at_] at mine
      rw [State.move_self]
      exact mine.quiet (by simp) (by simp)
    | pushFull at_ seen | popLoad at_ | popReady at_ seen | popNone at_ seen | popBehind at_ seen
    | popLost at_ | sizeHead at_ | ret at_ =>
      simp only [Event.thread] at mine ⊢
      rw [State.move_self]
      exact (mine.quiet (by simp) (by simp)).sublist
    | sizeTail at_ =>
      simp only [Event.thread] at mine ⊢
      rw [State.move_self]
      unfold sized
      split <;> exact (mine.quiet (by simp) (by simp)).sublist

theorem initial_owns (t : Tid) : Owns [] t ((initial A junk : State Tid W T c).threads t) :=
  List.Sublist.refl []

end Programs

def Local.pushing : Local W T → Option (W × T)
  | .pushCopy v pos | .pushStore v pos | .returning (.pushed v pos) => some (pos,v)
  | _ => none

def Local.popping : Local W T → Option W
  | .popCopy pos | .popStore pos _ | .returning (.popped pos _) => some pos
  | _ => none

structure Traced (val : W → Nat) (es : List (Event Tid W T)) (s : State Tid W T c) : Prop where
  pushReturned : ∀ t v pos, .ret t (.pushed v pos) ∈ es → (t,pos,v) ∈ pushWins es
  popReturned : ∀ t pos v, .ret t (.popped pos v) ∈ es → (t,pos) ∈ popWins es ∧ (values es)[val pos]? = some v
  pushDone : ∀ t pos v, (t,pos,v) ∈ pushWins es →
    .ret t (.pushed v pos) ∈ es ∨ (s.threads t).pushing = some (pos,v)
  popDone : ∀ t pos, (t,pos) ∈ popWins es →
    (∃ v, .ret t (.popped pos v) ∈ es) ∨ (s.threads t).popping = some pos
  published : ∀ t pos, .published t pos ∈ es →
    val pos < val s.head ∧ ∀ u, (s.threads u).writing ≠ some pos
  released : ∀ t pos, (t,pos) ∈ popWins es → .released t pos ∈ es ∨ (s.threads t).reading = some pos

variable [DecidableEq Tid] [DecidableEq W]

theorem Step.pushing (step : Step A s e s') (held : (s.threads t).pushing = some (pos,v)) :
    e = .ret t (.pushed v pos) ∨ (s'.threads t).pushing = some (pos,v) := by
  by_cases other : t ≠ e.thread
  · rw [step.frame other]; exact .inr held
  · obtain rfl : t = e.thread := not_not.mp other
    cases step
    case copyIn at_ | publish at_ => exact .inr (by simpa [Event.thread,at_,Local.pushing] using held)
    case ret result at_ =>
      simp only [Event.thread,at_] at held
      cases result with
      | pushed v pos => cases held; exact .inl rfl
      | full | popped | none | size | isEmpty => cases held
    case call at_ | pushLoad at_ | pushFree at_ _ | pushFull at_ _ | pushBehind at_ _ | pushWon at_ _
      | pushLost at_ | popLoad at_ | popReady at_ _ | popNone at_ _ | popBehind at_ _ | popWon at_ _
      | popLost at_ | copyOut at_ | release at_ | sizeHead at_ | sizeTail at_ =>
      simp [Event.thread,at_,Local.pushing] at held

theorem Step.popping (step : Step A s e s') (held : (s.threads t).popping = some pos) :
    (∃ v, e = .ret t (.popped pos v)) ∨ (s'.threads t).popping = some pos := by
  by_cases other : t ≠ e.thread
  · rw [step.frame other]; exact .inr held
  · obtain rfl : t = e.thread := not_not.mp other
    cases step
    case copyOut at_ | release at_ => exact .inr (by simpa [Event.thread,at_,Local.popping] using held)
    case ret result at_ =>
      simp only [Event.thread,at_] at held
      cases result with
      | popped pos v => cases held; exact .inl ⟨v,rfl⟩
      | full | pushed | none | size | isEmpty => cases held
    case call at_ | pushLoad at_ | pushFree at_ _ | pushFull at_ _ | pushBehind at_ _ | pushWon at_ _
      | pushLost at_ | popLoad at_ | popReady at_ _ | popNone at_ _ | popBehind at_ _ | popWon at_ _
      | popLost at_ | copyIn at_ | publish at_ | sizeHead at_ | sizeTail at_ =>
      simp [Event.thread,at_,Local.popping] at held

theorem Step.reading (step : Step A s e s') (held : (s.threads t).reading = some pos) :
    e = .released t pos ∨ (s'.threads t).reading = some pos := by
  by_cases other : t ≠ e.thread
  · rw [step.frame other]; exact .inr held
  · obtain rfl : t = e.thread := not_not.mp other
    cases step
    case copyOut at_ => exact .inr (by simpa [Event.thread,at_,Local.reading] using held)
    case release at_ =>
      simp only [Event.thread,at_,Local.reading,Option.some.injEq] at held
      subst held
      exact .inl rfl
    case call at_ | pushLoad at_ | pushFree at_ _ | pushFull at_ _ | pushBehind at_ _ | pushWon at_ _
      | pushLost at_ | popLoad at_ | popReady at_ _ | popNone at_ _ | popBehind at_ _ | popWon at_ _
      | popLost at_ | copyIn at_ | publish at_ | sizeHead at_ | sizeTail at_ | ret at_ =>
      simp [Event.thread,at_,Local.reading] at held

theorem Step.writing (step : Step A s e s') (held : (s'.threads t).writing = some pos) :
    (s.threads t).writing = some pos ∧ e ≠ .published t pos ∨ s.head = pos := by
  by_cases other : t ≠ e.thread
  · rw [step.frame other] at held
    exact .inl ⟨held,by rintro rfl; exact other rfl⟩
  · obtain rfl : t = e.thread := not_not.mp other
    cases step
    case pushWon at_ seen =>
      simp only [Event.thread,State.move_self,Local.writing,Option.some.injEq] at held
      exact .inr (seen.trans held)
    case copyIn at_ =>
      simp only [Event.thread,State.move_self,Local.writing,Option.some.injEq] at held
      subst held
      exact .inl ⟨by simp [Event.thread,at_,Local.writing],by simp⟩
    case call op _ => cases op <;> simp [Event.thread,entry,Local.writing] at held
    case pushLoad | pushFree | pushFull | pushBehind | pushLost | publish | popLoad | popReady | popNone
      | popBehind | popWon | popLost | copyOut | release | sizeHead | sizeTail | ret =>
      simp [Event.thread,Local.writing] at held

theorem traced_step (inv : Inv val (values es) s) (inv' : Inv val (values (es++[e])) s')
    (ordered' : InOrder val (es++[e]) s') (owns : ∀ t, Owns es t (s.threads t))
    (traced : Traced val es s) (step : Step A s e s') : Traced val (es++[e]) s' := by
  have pushGrown : ∀ {w}, w ∈ pushWins es → w ∈ pushWins (es++[e]) := by
    intro w member; rw [pushWins_snoc]; exact List.mem_append_left _ member
  have popGrown : ∀ {w}, w ∈ popWins es → w ∈ popWins (es++[e]) := by
    intro w member; rw [popWins_snoc]; exact List.mem_append_left _ member
  have valueGrown : ∀ {p : Nat} {v : T}, (values es)[p]? = some v → (values (es++[e]))[p]? = some v := by
    intro p v found
    rw [values_snoc,List.getElem?_append_left (List.getElem?_eq_some_iff.mp found).1]
    exact found
  have headGrown : val s.head ≤ val s'.head := by
    have before := inv.length
    have after := inv'.length
    rw [values_snoc,List.length_append] at after
    omega
  refine ⟨?_,?_,?_,?_,?_,?_⟩
  · intro t v pos member
    rcases List.mem_append.mp member with old | new
    · exact pushGrown (traced.pushReturned t v pos old)
    · obtain rfl := List.mem_singleton.mp new
      cases step with
      | ret at_ =>
        have mine := owns t
        rw [at_] at mine
        exact pushGrown mine.1
  · intro t pos v member
    rcases List.mem_append.mp member with old | new
    · obtain ⟨won,value⟩ := traced.popReturned t pos v old
      exact ⟨popGrown won,valueGrown value⟩
    · obtain rfl := List.mem_singleton.mp new
      cases step with
      | ret at_ =>
        have mine := owns t
        have knows := inv.known t
        rw [at_] at mine knows
        exact ⟨popGrown mine.1,valueGrown knows⟩
  · intro t pos v member
    rw [pushWins_snoc] at member
    rcases List.mem_append.mp member with old | new
    · rcases traced.pushDone t pos v old with returned | held
      · exact .inl (List.mem_append_left _ returned)
      · rcases step.pushing held with rfl | still
        · exact .inl (by simp)
        · exact .inr still
    · cases step <;> simp [Event.pushWin] at new
      obtain ⟨rfl,rfl,rfl⟩ := new
      exact .inr (by simp [Local.pushing])
  · intro t pos member
    rw [popWins_snoc] at member
    rcases List.mem_append.mp member with old | new
    · rcases traced.popDone t pos old with ⟨v,returned⟩ | held
      · exact .inl ⟨v,List.mem_append_left _ returned⟩
      · rcases step.popping held with ⟨v,rfl⟩ | still
        · exact .inl ⟨v,by simp⟩
        · exact .inr still
    · cases step <;> simp [Event.popWin] at new
      obtain ⟨rfl,rfl⟩ := new
      exact .inr (by simp [Local.popping])
  · intro t pos member
    rcases List.mem_append.mp member with old | new
    · obtain ⟨below,unheld⟩ := traced.published t pos old
      refine ⟨by omega,fun u held => ?_⟩
      rcases step.writing held with ⟨before,_⟩ | newest
      · exact unheld u before
      · rw [newest] at below
        exact Nat.lt_irrefl _ below
    · obtain rfl := List.mem_singleton.mp new
      have writes : (s.threads t).writing = some pos := by cases step with
        | publish at_ => rw [at_]; rfl
      obtain ⟨_,below,_⟩ := inv.writer t pos writes
      refine ⟨by omega,fun u held => ?_⟩
      rcases step.writing held with ⟨before,different⟩ | newest
      · exact different (by rw [inv.oneWriter u t pos pos before writes rfl])
      · rw [newest] at below
        exact Nat.lt_irrefl _ below
  · intro t pos member
    rw [popWins_snoc] at member
    rcases List.mem_append.mp member with old | new
    · rcases traced.released t pos old with done | held
      · exact .inl (List.mem_append_left _ done)
      · rcases step.reading held with rfl | still
        · exact .inl (by simp)
        · exact .inr still
    · cases step <;> simp [Event.popWin] at new
      obtain ⟨rfl,rfl⟩ := new
      exact .inr (by simp [Local.reading])

-- Everything the run of a fresh queue establishes, in one induction.
structure Accounted (val : W → Nat) (es : List (Event Tid W T)) (s : State Tid W T c) : Prop where
  inv : Inv val (values es) s
  ordered : InOrder val es s
  owns : ∀ t, Owns es t (s.threads t)
  traced : Traced val es s

theorem Accounted.step (faithful : Faithful A val half) (least : 2 ≤ c.size) (fits : Fits c half (es++[e]))
    (acc : Accounted val es s) (step : Step A s e s') : Accounted val (es++[e]) s' := by
  have inv' := acc.inv.step faithful least fits step
  have bound : val s.head+c.size < 2*half := by
    rw [← acc.inv.length,values_length]; exact fits.before
  have order := acc.inv.order
  have ordered' := acc.ordered.step faithful (by omega) (by omega) step
  exact ⟨inv',ordered',owns_step acc.owns step,
    traced_step acc.inv inv' ordered' acc.owns acc.traced step⟩

omit [DecidableEq W] in
theorem initial_accounted (faithful : Faithful A val half) (room : c.size < 2*half) (junk : Fin c.size → T) :
    Accounted val [] (initial A junk : State Tid W T c) := by
  have zero : val (A.ofIndex 0) = 0 := faithful.ofIndex 0 (by omega)
  refine ⟨initial_inv faithful room junk,⟨?_,?_⟩,initial_owns,?_⟩
  · simp [initial,zero,pushWins]
  · simp [initial,zero,popWins]
  · constructor <;> simp [pushWins,popWins]

theorem runs_accounted (faithful : Faithful A val half) (least : 2 ≤ c.size)
    (path : Runs (Step A) (initial A junk) es s) (fits : Fits c half es) : Accounted val es s := by
  have room : c.size < 2*half := by simp only [Fits] at fits; omega
  exact Runs.preserves_admissible (Accounted val) (Fits c half) (fun _ _ => Fits.before)
    (fun _ _ _ _ fits acc step => acc.step faithful least fits step)
    (initial_accounted faithful room junk) path fits

theorem word_accounted {es : List (Event Tid (BitVec 64) T)} {s : State Tid (BitVec 64) T c} (power : 1 ≤ c.exponent)
    (path : Runs (Step (word c)) (initial (word c) junk) es s) (few : (pushWins es).length < 2^63) :
    Accounted BitVec.toNat es s := by
  have most := c.size_le
  exact runs_accounted (word_faithful c) (c.two_le power) path (by simp only [Fits]; omega)

-- One line per promise: winners are numbered 0,1,2,... on either side, the pop
-- of ticket t hands back what the push of ticket t was given, and a thread's
-- pushes take effect in its own order.
structure TicketsMatched (es : List (Event Tid (BitVec 64) T)) (s : State Tid (BitVec 64) T c) : Prop where
  pushOrder : (pushWins es).map (fun w => w.2.1.toNat) = List.range s.head.toNat
  popOrder : (popWins es).map (fun w => w.2.toNat) = List.range s.tail.toNat
  pushOnce : ∀ p < s.head.toNat, ∃! w, w ∈ pushWins es ∧ w.2.1.toNat = p
  popOnce : ∀ p, ∀ w ∈ popWins es, ∀ w' ∈ popWins es, w.2.toNat = p → w'.2.toNat = p → w = w'
  popBelow : s.tail.toNat ≤ s.head.toNat
  pushSucceeds : ∀ t pos v, (t,pos,v) ∈ pushWins es →
    .ret t (.pushed v pos) ∈ es ∨ (s.threads t).pushing = some (pos,v)
  popSucceeds : ∀ t pos, (t,pos) ∈ popWins es →
    (∃ v, .ret t (.popped pos v) ∈ es) ∨ (s.threads t).popping = some pos
  pushReturned : ∀ t v pos, .ret t (.pushed v pos) ∈ es → (t,pos,v) ∈ pushWins es
  popReturned : ∀ t pos v, .ret t (.popped pos v) ∈ es →
    (t,pos) ∈ popWins es ∧ ∃ u, (u,pos,v) ∈ pushWins es
  programOrder : ∀ t, (pushesBy t es).Sublist (pushCalls t es)
  atRest : (∀ t, s.threads t = .idle) → ∀ p, s.tail.toNat ≤ p → p < s.head.toNat →
    ∃ t pos v, (t,pos,v) ∈ pushWins es ∧ pos.toNat = p ∧
      (s.slots (c.index p)).data = v ∧ (s.slots (c.index p)).seq.toNat = p+1

theorem winner_unique {α : Type} {ws : List α} {ticket : α → Nat} {a b : α} (ordered : ws.map ticket = List.range n)
    (one : a ∈ ws) (two : b ∈ ws) (same : ticket a = ticket b) : a = b := by
  obtain ⟨i,hi,rfl⟩ := List.mem_iff_getElem.mp one
  obtain ⟨j,hj,rfl⟩ := List.mem_iff_getElem.mp two
  have place : ∀ k (hk : k < ws.length), ticket ws[k] = k := by
    intro k hk
    have found : (ws.map ticket)[k]? = some (ticket ws[k]) := by simp [List.getElem?_eq_getElem hk]
    rw [ordered,List.getElem?_eq_some_iff] at found
    obtain ⟨_,equal⟩ := found
    rw [List.getElem_range] at equal
    exact equal.symm
  rw [place i hi,place j hj] at same
  subst same
  rfl

theorem tickets_matched {Tid T : Type} [DecidableEq Tid] {c : Capacity} {junk : Fin c.size → T}
    {es : List (Event Tid (BitVec 64) T)} {s : State Tid (BitVec 64) T c}
    (power : 1 ≤ c.exponent) (path : Runs (Step (word c)) (initial (word c) junk) es s)
    (few : (pushWins es).length < 2^63) : TicketsMatched es s := by
  have fits : Fits c (2^63) es := by have := c.size_le; simp only [Fits]; omega
  have faithful := word_faithful c
  have acc := runs_accounted faithful (c.two_le power) path fits
  refine ⟨acc.ordered.1,acc.ordered.2,?_,?_,acc.inv.order,acc.traced.pushDone,acc.traced.popDone,
    acc.traced.pushReturned,?_,fun t => (acc.owns t).sublist,?_⟩
  · intro p below
    have present : p ∈ (pushWins es).map (fun w => w.2.1.toNat) := by
      rw [acc.ordered.1]; exact List.mem_range.mpr below
    obtain ⟨w,member,rfl⟩ := List.mem_map.mp present
    exact ⟨w,⟨member,rfl⟩,fun w' other => winner_unique acc.ordered.1 other.1 member other.2⟩
  · intro p w one w' two first second
    exact winner_unique acc.ordered.2 one two (first.trans second.symm)
  · intro t pos v member
    obtain ⟨won,value⟩ := acc.traced.popReturned t pos v member
    exact ⟨won,acc.ordered.pushed_by faithful value⟩
  · intro idle p low high
    have unwritten : ∀ t pos, (s.threads t).writing = some pos → pos.toNat ≠ p := by
      intro t pos held; rw [idle t] at held; cases held
    obtain ⟨seq,value⟩ := acc.inv.filled p low high unwritten
    have present : p ∈ (pushWins es).map (fun w => w.2.1.toNat) := by
      rw [acc.ordered.1]; exact List.mem_range.mpr high
    obtain ⟨⟨t,pos,v⟩,member,rfl⟩ := List.mem_map.mp present
    have written := acc.ordered.value_at member
    rw [written] at value
    exact ⟨t,pos,v,member,rfl,(Option.some.inj value).symm,seq⟩

def handOver : List (Bool × Choice Nat) :=
  [(true,.call (.tryPush 7)),(true,.run),(true,.run),(true,.spurious),(true,.run),(true,.run),(true,.run),(true,.run),
   (false,.call .tryPop),(false,.run),(false,.run),(false,.run),(false,.run),(false,.run),(false,.run),(true,.run)]

def two : Capacity := ⟨1,by decide⟩

theorem tickets_matched_handOver :
    ∃ follows : (play (schedule (word two)) (initial (word two) (fun _ => 0)) handOver).isSome,
      TicketsMatched ((play (schedule (word two)) (initial (word two) (fun _ => 0)) handOver).get follows).1
        ((play (schedule (word two)) (initial (word two) (fun _ => 0)) handOver).get follows).2 :=
  ⟨by decide,tickets_matched (by decide) (schedule_runs (by decide)) (by decide)⟩

end Chronos.MpmcQueue
