import Chronos.MpmcTickets

namespace Chronos.MpmcQueue

variable {Tid W T : Type} {c : Capacity}

def asks (isEmpty : Bool) : Call T := if isEmpty then .empty else .size

structure Measurement (es : List (Event Tid W T)) where
  thread : Tid
  isEmpty : Bool
  before : List (Event Tid W T)
  starting : List (Event Tid W T)
  head : W
  between : List (Event Tid W T)
  tail : W
  ending : List (Event Tid W T)
  result : Result W T
  after : List (Event Tid W T)
  shape : es = before++.call thread (asks isEmpty)::(starting++.loadHead thread head::(between++.loadTail thread tail::(ending++
    .ret thread result::after)))
  alone : ∀ e ∈ starting++between++ending, e.thread ≠ thread

namespace Measurement
variable {es : List (Event Tid W T)}

def started (m : Measurement es) : List (Event Tid W T) := m.before++[.call m.thread (asks m.isEmpty)]
def front (m : Measurement es) : List (Event Tid W T) := m.started++m.starting

def loaded (m : Measurement es) : List (Event Tid W T) := m.front++[.loadHead m.thread m.head]
def reloaded (m : Measurement es) : List (Event Tid W T) := m.loaded++(m.between++[.loadTail m.thread m.tail])
def finished (m : Measurement es) : List (Event Tid W T) := m.reloaded++m.ending

theorem finished_append (m : Measurement es) : es = m.finished++.ret m.thread m.result::m.after := by
  have shape := m.shape
  simpa [finished,reloaded,loaded,front,started] using shape

theorem answered (m : Measurement es) : .ret m.thread m.result ∈ es :=
  (congrArg (Event.ret m.thread m.result ∈ ·) m.finished_append).mpr (by simp)

-- No more values leave between the two reads than were there at the first.
def Covered (m : Measurement es) : Prop :=
  (popWins m.front).length+(popWins m.between).length ≤ (pushWins m.front).length

-- If the last pop between the two reads takes the last ticket below the head_
-- that was read, nothing has been pushed since that read.
def Settled (m : Measurement es) : Prop := ∀ earlier e later, m.between = earlier++e::later → e.popWin.isSome → popWins later = [] →
  (popWins m.front).length+(popWins earlier).length+1 = (pushWins m.front).length → pushWins earlier = []

end Measurement

theorem pushWins_append (es later : List (Event Tid W T)) : pushWins (es++later) = pushWins es++pushWins later :=
  List.filterMap_append

theorem popWins_append (es later : List (Event Tid W T)) : popWins (es++later) = popWins es++popWins later :=
  List.filterMap_append

theorem wins_grow {first last : List (Event Tid W T)} (front : first <+: last) :
    (pushWins first).length ≤ (pushWins last).length ∧ (popWins first).length ≤ (popWins last).length :=
  ⟨(front.filterMap _).length_le,(front.filterMap _).length_le⟩

theorem pop_wins {e : Event Tid W T} (pops : e.popWin.isSome) : pushWins [e] = [] ∧ (popWins [e]).length = 1 := by
  cases e <;> cases pops
  exact ⟨rfl,rfl⟩

theorem last_pop {es : List (Event Tid W T)} (some : popWins es ≠ []) :
    ∃ earlier e later, es = earlier++e::later ∧ e.popWin.isSome ∧ popWins later = [] := by
  induction es using List.reverseRecOn with
  | nil => exact absurd rfl some
  | append_singleton es e ih =>
    by_cases pops : e.popWin.isSome
    · exact ⟨es,e,[],rfl,pops,rfl⟩
    · have quiet : e.popWin = none := by simpa using pops
      have none : popWins [e] = [] := List.filterMap_cons_none quiet
      rw [popWins_append,none,List.append_nil] at some
      obtain ⟨earlier,e',later,rfl,pops',last⟩ := ih some
      exact ⟨earlier,e',later++[e],by simp,pops',by rw [popWins_append,last,none]; rfl⟩

theorem split_wins {earlier later : List (Event Tid W T)} {e : Event Tid W T} (pops : e.popWin.isSome) (last : popWins later = []) :
    (popWins (earlier++e::later)).length = (popWins earlier).length+1 := by
  rw [← List.singleton_append,popWins_append,popWins_append,last,List.append_nil,List.length_append,(pop_wins pops).2]

section Reached
variable [DecidableEq Tid]

structure Counted (c : Capacity) (es : List (Event Tid (BitVec 64) T)) (s : State Tid (BitVec 64) T c) : Prop where
  head : s.head.toNat = (pushWins es).length
  tail : s.tail.toNat = (popWins es).length
  order : (popWins es).length ≤ (pushWins es).length
  room : (pushWins es).length ≤ (popWins es).length+c.size

theorem reached_counted {junk : Fin c.size → T} {es : List (Event Tid (BitVec 64) T)} {s : State Tid (BitVec 64) T c}
    (power : 1 ≤ c.exponent) (path : Runs (Step (word c)) (initial (word c) junk) es s) (few : (pushWins es).length < 2^63) :
    Counted c es s := by
  have most := c.size_le
  have acc := runs_accounted (word_faithful c) (c.two_le power) path (by simp only [Fits]; omega)
  have head := congrArg List.length acc.ordered.1
  have tail := congrArg List.length acc.ordered.2
  rw [List.length_map,List.length_range] at head tail
  have order := acc.inv.order
  have room := acc.inv.room
  exact ⟨head.symm,tail.symm,by omega,by omega⟩

variable [DecidableEq W] {A : Arithmetic W c} {s s' : State Tid W T c} {es : List (Event Tid W T)}

theorem alone_frame (path : Runs (Step A) s es s') (alone : ∀ e ∈ es, e.thread ≠ t) : s'.threads t = s.threads t := by
  induction path with
  | nil => rfl
  | step _ taken ih =>
    rename_i e after _
    rw [taken.frame (Ne.symm (alone e (by simp)))]
    exact ih fun e member => alone e (List.mem_append_left _ member)

theorem last_own (path : Runs (Step A) s es s') (moved : s'.threads t ≠ s.threads t) :
    ∃ earlier e later here next, es = earlier++e::later ∧ Runs (Step A) s earlier here ∧ Step A here e next ∧
      e.thread = t ∧ next.threads t = s'.threads t ∧ ∀ e ∈ later, e.thread ≠ t := by
  induction path with
  | nil => exact absurd rfl moved
  | step prior taken ih =>
    rename_i earlier middle e after
    by_cases own : e.thread = t
    · exact ⟨earlier,e,[],middle,after,rfl,prior,taken,own,rfl,nofun⟩
    · have same := taken.frame (Ne.symm own)
      rw [same] at moved
      obtain ⟨front,e',later,here,next,rfl,path,step,mine,stands,others⟩ := ih moved
      refine ⟨front,e',later++[e],here,next,by simp,path,step,mine,stands.trans same.symm,fun e'' member => ?_⟩
      rcases List.mem_append.mp member with old | new
      · exact others e'' old
      · cases List.mem_singleton.mp new
        exact own

def Result.measures : Result W T → Option Bool
  | .size _ => some false
  | .isEmpty _ => some true
  | _ => Option.none

theorem sized_measures (isEmpty : Bool) (h t : W) : (sized A isEmpty h t : Result W T).measures = some isEmpty := by
  cases isEmpty <;> rfl

theorem Step.measures_tail {r : Result W T} (step : Step A s e s') (own : e.thread = t) (stands : s'.threads t = .returning r)
    (measures : r.measures = some isEmpty) :
    ∃ h, e = .loadTail t s.tail ∧ s.threads t = .sizeTail isEmpty h := by
  cases step <;> simp only [Event.thread] at own <;> subst own <;>
    simp only [State.move_self,reduceCtorEq,Local.returning.injEq] at stands
  case sizeTail at_ =>
    subst stands
    rw [sized_measures] at measures
    cases measures
    exact ⟨_,rfl,at_⟩
  case call op _ => cases op <;> cases stands
  all_goals
    subst stands
    cases measures

theorem Step.measures_head (step : Step A s e s') (own : e.thread = t) (stands : s'.threads t = .sizeTail isEmpty h) :
    e = .loadHead t s.head ∧ s.threads t = .sizeHead isEmpty := by
  cases step <;> simp only [Event.thread] at own <;> subst own <;>
    simp only [State.move_self,reduceCtorEq,Local.sizeTail.injEq] at stands
  case sizeHead at_ =>
    obtain ⟨rfl,_⟩ := stands
    exact ⟨rfl,at_⟩
  case call op _ => cases op <;> cases stands

theorem Step.measures_call (step : Step A s e s') (own : e.thread = t) (stands : s'.threads t = .sizeHead isEmpty) :
    e = .call t (asks isEmpty) := by
  cases step <;> simp only [Event.thread] at own <;> subst own <;>
    simp only [State.move_self,reduceCtorEq] at stands
  case call op _ => cases op <;> cases stands <;> rfl

theorem measured {junk : Fin c.size → T} {r : Result W T} (path : Runs (Step A) (initial A junk) es s)
    (shape : es = earlier++.ret t r::later) (measures : r.measures = some isEmpty) :
    ∃ m : Measurement es, m.thread = t ∧ m.isEmpty = isEmpty ∧ m.result = r ∧ m.after = later := by
  subst shape
  obtain ⟨here,_,toRet,step,_⟩ := path.split_at
  have returns : here.threads t = .returning r := by
    cases step with
    | ret at_ => exact at_
  obtain ⟨_,e,ending,atTail,_,rfl,toTail,read,own,stands,quietEnd⟩ := last_own toRet (t:=t) (by rw [returns]; exact nofun)
  obtain ⟨h,rfl,reads⟩ := read.measures_tail own (stands.trans returns) measures
  obtain ⟨_,e,between,atHead,_,rfl,toHead,read,own,stands,quietBetween⟩ := last_own toTail (t:=t) (by rw [reads]; exact nofun)
  obtain ⟨rfl,begins⟩ := read.measures_head own (stands.trans reads)
  obtain ⟨front,e,starting,_,_,rfl,_,read,own,stands,quietStart⟩ := last_own toHead (t:=t) (by rw [begins]; exact nofun)
  obtain rfl := read.measures_call own (stands.trans begins)
  refine ⟨⟨t,isEmpty,front,starting,atHead.head,between,atTail.tail,ending,r,later,by simp,?_⟩,rfl,rfl,rfl,rfl⟩
  intro e member
  rcases List.mem_append.mp member with first | last
  · rcases List.mem_append.mp first with first | last
    · exact quietStart e first
    · exact quietBetween e last
  · exact quietEnd e last

structure Measurement.Read (m : Measurement es) (A : Arithmetic W c) (junk : Fin c.size → T) (atHead atTail : State Tid W T c) :
    Prop where
  toHead : Runs (Step A) (initial A junk) m.front atHead
  toTail : Runs (Step A) (initial A junk) (m.front++.loadHead m.thread m.head::m.between) atTail
  head : m.head = atHead.head
  tail : m.tail = atTail.tail
  result : m.result = sized A m.isEmpty m.head m.tail

theorem Measurement.read {junk : Fin c.size → T} (m : Measurement es) (path : Runs (Step A) (initial A junk) es s) :
    ∃ atHead atTail, m.Read A junk atHead atTail := by
  obtain ⟨t,isEmpty,before,starting,h,between,tl,ending,r,after,shape,alone⟩ := m
  subst shape
  obtain ⟨s₀,s₁,toCall,call,rest⟩ := path.split_at
  obtain ⟨atHead,s₂,start,loadHead,rest⟩ := rest.split_at
  obtain ⟨atTail,s₃,middle,loadTail,rest⟩ := rest.split_at
  obtain ⟨s₄,_,finish,returns,_⟩ := rest.split_at
  have asked : s₁.threads t = .sizeHead isEmpty := by
    cases call with
    | call => rw [State.move_self]; cases isEmpty <;> rfl
  have toHead : Runs (Step A) (initial A junk) (before++[.call t (asks isEmpty)]++starting) atHead :=
    (toCall.step call).append start
  have seen : h = atHead.head ∧ s₂.threads t = .sizeTail isEmpty atHead.head := by
    have stands := (alone_frame start fun e member => alone e (by simp [member])).trans asked
    cases loadHead with
    | pushLoad at_ => rw [stands] at at_; cases at_
    | sizeHead at_ =>
      rw [stands] at at_
      cases at_
      exact ⟨rfl,State.move_self _ _ _⟩
  have answered : tl = atTail.tail ∧ s₃.threads t = .returning (sized A isEmpty h tl) := by
    have stands := (alone_frame middle fun e member => alone e (by simp [member])).trans seen.2
    cases loadTail with
    | popLoad at_ => rw [stands] at at_; cases at_
    | sizeTail at_ =>
      rw [stands] at at_
      cases at_
      rw [seen.1]
      exact ⟨rfl,State.move_self _ _ _⟩
  have result : r = sized A isEmpty h tl := by
    have stands := (alone_frame finish fun e member => alone e (by simp [member])).trans answered.2
    cases returns with
    | ret at_ =>
      rw [stands] at at_
      cases at_
      rfl
  have toTail := (toHead.step loadHead).append middle
  rw [List.append_assoc,List.singleton_append] at toTail
  exact ⟨atHead,atTail,toHead,toTail,seen.1,answered.1,result⟩

end Reached

section Sizes
variable [DecidableEq Tid] {junk : Fin c.size → T} {s : State Tid (BitVec 64) T c}
variable {es first last : List (Event Tid (BitVec 64) T)}

def EmptyAt (junk : Fin c.size → T) (first last : List (Event Tid (BitVec 64) T)) : Prop :=
  ∃ here s, first <+: here ∧ here <+: last ∧ Runs (Step (word c)) (initial (word c) junk) here s ∧ s.head = s.tail

omit [DecidableEq Tid] in
theorem prefix_few (front : first <+: last) (few : (pushWins last).length < n) : (pushWins first).length < n :=
  (wins_grow front).1.trans_lt few

theorem emptyAt_iff (power : 1 ≤ c.exponent) (path : Runs (Step (word c)) (initial (word c) junk) es s)
    (few : (pushWins es).length < 2^63) (part : last <+: es) : EmptyAt junk first last ↔
      ∃ here, first <+: here ∧ here <+: last ∧ (pushWins here).length = (popWins here).length := by
  constructor
  · rintro ⟨here,s',after,before,reached,same⟩
    have counted := reached_counted power reached (prefix_few (before.trans part) few)
    refine ⟨here,after,before,?_⟩
    rw [← counted.head,← counted.tail,same]
  · rintro ⟨here,after,before,same⟩
    obtain ⟨later,rfl⟩ := before.trans part
    obtain ⟨s',reached,_⟩ := path.append_inv
    have counted := reached_counted power reached (prefix_few (List.prefix_append _ _) few)
    refine ⟨here,s',after,before,reached,BitVec.eq_of_toNat_eq ?_⟩
    rw [counted.head,counted.tail,same]

namespace Measurement

omit [DecidableEq Tid] in
theorem front_prefix (m : Measurement es) : m.front <+: es := by
  refine ⟨.loadHead m.thread m.head::(m.between++.loadTail m.thread m.tail::(m.ending++.ret m.thread m.result::m.after)),?_⟩
  simpa [front,started] using m.shape.symm

omit [DecidableEq Tid] in
theorem reloaded_prefix (m : Measurement es) : m.reloaded <+: es :=
  ⟨m.ending++.ret m.thread m.result::m.after,by simpa [finished] using m.finished_append.symm⟩

structure Tallied (c : Capacity) (m : Measurement es) : Prop where
  head : m.head.toNat = (pushWins m.front).length
  tail : m.tail.toNat = (popWins m.front).length+(popWins m.between).length
  order : (popWins m.front).length ≤ (pushWins m.front).length
  room : (pushWins m.front).length ≤ (popWins m.front).length+c.size
  few : m.tail.toNat < 2^63
  result : m.result = sized (word c) m.isEmpty m.head m.tail

theorem tallied (m : Measurement es) (power : 1 ≤ c.exponent) (path : Runs (Step (word c)) (initial (word c) junk) es s)
    (few : (pushWins es).length < 2^63) : m.Tallied c := by
  obtain ⟨atHead,atTail,read⟩ := m.read path
  have atFirst := reached_counted power read.toHead (prefix_few m.front_prefix few)
  have second : m.front++.loadHead m.thread m.head::m.between <+: es :=
    ⟨.loadTail m.thread m.tail::(m.ending++.ret m.thread m.result::m.after),by simpa [front,started] using m.shape.symm⟩
  have fewer := prefix_few second few
  have atSecond := reached_counted power read.toTail fewer
  have tail : m.tail.toNat = (popWins m.front).length+(popWins m.between).length := by
    rw [read.tail,atSecond.tail,popWins_append,List.length_append]
    rfl
  have order := atSecond.order
  rw [← atSecond.tail,← read.tail] at order
  exact ⟨read.head ▸ atFirst.head,tail,atFirst.order,atFirst.room,by omega,read.result⟩

omit [DecidableEq Tid] in
theorem covered_iff {m : Measurement es} (tallied : m.Tallied c) : m.Covered ↔ (m.head-m.tail).toNat ≤ c.size := by
  obtain ⟨head,tail,order,room,few,_⟩ := tallied
  have most := c.size_le
  unfold Covered
  rw [BitVec.toNat_sub]
  omega

theorem settled_iff {m : Measurement es} (tallied : m.Tallied c) (power : 1 ≤ c.exponent)
    (path : Runs (Step (word c)) (initial (word c) junk) es s) (few : (pushWins es).length < 2^63) :
    m.Settled ↔ (m.head = m.tail → EmptyAt junk m.loaded m.reloaded) := by
  rw [emptyAt_iff power path few m.reloaded_prefix]
  obtain ⟨head,tail,order,_,_,_⟩ := tallied
  have pushed : pushWins m.loaded = pushWins m.front := by rw [loaded,pushWins_append]; exact List.append_nil _
  have popped : popWins m.loaded = popWins m.front := by rw [loaded,popWins_append]; exact List.append_nil _
  constructor
  · intro settled same
    rw [same] at head
    by_cases none : popWins m.between = []
    · refine ⟨m.loaded,List.prefix_refl _,List.prefix_append _ _,?_⟩
      rw [none,List.length_nil] at tail
      rw [pushed,popped]
      omega
    · obtain ⟨earlier,e,later,shape,pops,last⟩ := last_pop none
      rw [shape,split_wins pops last] at tail
      have quiet := settled earlier e later shape pops last (by omega)
      refine ⟨m.loaded++(earlier++[e]),List.prefix_append _ _,⟨later++[.loadTail m.thread m.tail],by simp [reloaded,shape]⟩,?_⟩
      rw [pushWins_append,popWins_append,pushWins_append,popWins_append,pushed,popped,quiet,(pop_wins pops).1]
      simp only [List.append_nil,List.length_append,(pop_wins pops).2]
      omega
  · intro seen earlier e later shape pops last taken
    rw [shape,split_wins pops last] at tail
    obtain ⟨here,⟨x,rfl⟩,before,same⟩ := seen (BitVec.eq_of_toNat_eq (by omega))
    have inside : x <+: m.between++[.loadTail m.thread m.tail] := (List.prefix_append_right_inj m.loaded).mp before
    have part : earlier <+: m.between++[.loadTail m.thread m.tail] := ⟨e::later++[.loadTail m.thread m.tail],by simp [shape]⟩
    have whole : (popWins (m.between++[.loadTail m.thread m.tail])).length = (popWins earlier).length+1 := by
      rw [popWins_append,List.length_append,shape,split_wins pops last]
      rfl
    have bound := (wins_grow inside).2
    rw [pushWins_append,popWins_append,List.length_append,List.length_append,pushed,popped] at same
    -- before that pop the tail is below the head that was read; after a push the head is above it
    rcases List.prefix_or_prefix_of_prefix inside part with early | late
    · have fewer := (wins_grow early).2
      omega
    · have more := (wins_grow late).1
      apply List.eq_nil_of_length_eq_zero
      omega

end Measurement

def SizesBounded (c : Capacity) (es : List (Event Tid (BitVec 64) T)) : Prop :=
  ∀ t n, .ret t (.size n) ∈ es → n.toNat ≤ c.size

def EmptiesSeen (junk : Fin c.size → T) (es : List (Event Tid (BitVec 64) T)) : Prop :=
  ∀ earlier t later, es = earlier++.ret t (.isEmpty true)::later → ∃ before during, earlier = before++.call t .empty::during ∧
    (∀ e ∈ during, ∀ r, e ≠ .ret t r) ∧ EmptyAt junk (before++[.call t .empty]) earlier

omit [DecidableEq Tid] in
theorem sized_size {b : Bool} {h t n : BitVec 64} (same : (sized (word c) b h t : Result (BitVec 64) T) = .size n) :
    b = false ∧ n = h-t := by
  cases b <;> cases same
  exact ⟨rfl,rfl⟩

omit [DecidableEq Tid] in
theorem sized_empty {h t : BitVec 64} : (sized (word c) true h t : Result (BitVec 64) T) = .isEmpty true ↔ h = t := by
  simp only [sized,if_true,Result.isEmpty.injEq,decide_eq_true_iff]
  show h-t = BitVec.ofNat 64 0 ↔ h = t
  constructor
  · intro none
    simpa using BitVec.sub_eq_iff_eq_add.mp none
  · rintro rfl
    exact BitVec.sub_self h

theorem empties_seen (power : 1 ≤ c.exponent) (path : Runs (Step (word c)) (initial (word c) junk) es s)
    (few : (pushWins es).length < 2^63) (settled : ∀ m : Measurement es, m.isEmpty = true → m.Settled) : EmptiesSeen junk es := by
  intro earlier t later shape
  obtain ⟨m,rfl,asked,answer,rfl⟩ := measured path shape rfl
  have tallied := m.tallied power path few
  have same := tallied.result.symm.trans answer
  rw [asked] at same
  obtain ⟨here,s',after,before,reached⟩ := (m.settled_iff tallied power path few).mp (settled m asked) (sized_empty.mp same)
  have whole : earlier = m.finished := by
    have both := shape.symm.trans m.finished_append
    exact (List.append_inj' both (by simp)).1
  subst whole
  refine ⟨m.before,m.starting++.loadHead m.thread m.head::(m.between++.loadTail m.thread m.tail::m.ending),?_,?_,here,s',?_,?_,reached⟩
  · simp [Measurement.finished,Measurement.reloaded,Measurement.loaded,Measurement.front,Measurement.started,asked,asks]
  · intro e member r returned
    subst returned
    simp only [List.mem_append,List.mem_cons,reduceCtorEq,false_or] at member
    exact m.alone (.ret m.thread r) (by simpa [or_assoc] using member) rfl
  · have start : m.before++[.call m.thread .empty] = m.started := by rw [Measurement.started,asked]; rfl
    rw [start]
    exact (show m.started <+: m.loaded from ⟨m.starting++[.loadHead m.thread m.head],by simp [Measurement.loaded,Measurement.front]⟩).trans after
  · exact before.trans (List.prefix_append _ _)

end Sizes

def blank : Fin two.size → Nat := fun _ => 0

-- Two threads on two slots. In the first run size() reads head_, a value passes
-- through, size() reads tail_; in the second the queue always holds a value.
def throughput : List (Bool × Choice Nat) := List.flatten [
  [(true,.call .size),(true,.run)],
  (false,.call (.tryPush 7))::List.replicate 6 (false,.run),
  (false,.call .tryPop)::List.replicate 6 (false,.run),
  [(true,.run),(true,.run)]]

def neverEmpty : List (Bool × Choice Nat) := List.flatten [
  (false,.call (.tryPush 7))::List.replicate 6 (false,.run),
  [(true,.call .empty),(true,.run)],
  (false,.call (.tryPush 8))::List.replicate 6 (false,.run),
  (false,.call .tryPop)::List.replicate 6 (false,.run),
  [(true,.run),(true,.run)]]

theorem sizes_meaningful {Tid T : Type} [DecidableEq Tid] {c : Capacity} {junk : Fin c.size → T}
    {es : List (Event Tid (BitVec 64) T)} {s : State Tid (BitVec 64) T c} (power : 1 ≤ c.exponent)
    (path : Runs (Step (word c)) (initial (word c) junk) es s) (few : (pushWins es).length < 2^63) :
    (SizesBounded c es ↔ ∀ m : Measurement es, m.isEmpty = false → m.Covered) ∧
    ((∀ m : Measurement es, m.isEmpty = true → m.Settled) → EmptiesSeen junk es) ∧
    ∀ m : Measurement es, m.isEmpty = true →
      (m.Settled ↔ (m.result = .isEmpty true → EmptyAt junk m.loaded m.reloaded)) := by
  refine ⟨⟨?_,?_⟩,empties_seen power path few,?_⟩
  · intro bounded m asked
    have tallied := m.tallied power path few
    have answer := tallied.result
    rw [asked] at answer
    have member := m.answered
    rw [answer] at member
    exact (m.covered_iff tallied).mpr (bounded m.thread _ member)
  · intro covered t n answered
    obtain ⟨earlier,later,shape⟩ := List.append_of_mem answered
    obtain ⟨m,_,asked,answer,_⟩ := measured path shape rfl
    have tallied := m.tallied power path few
    obtain ⟨_,rfl⟩ := sized_size (tallied.result.symm.trans answer)
    exact (m.covered_iff tallied).mp (covered m asked)
  · intro m asked
    have tallied := m.tallied power path few
    have answer := tallied.result
    rw [asked] at answer
    rw [m.settled_iff tallied power path few,answer,sized_empty]

theorem sizes_meaningful_throughput :
    ∃ follows : (play (schedule (word two)) (initial (word two) blank) throughput).isSome,
      let es := ((play (schedule (word two)) (initial (word two) blank) throughput).get follows).1
      (SizesBounded two es ↔ ∀ m : Measurement es, m.isEmpty = false → m.Covered) ∧
      ((∀ m : Measurement es, m.isEmpty = true → m.Settled) → EmptiesSeen blank es) ∧
      ∀ m : Measurement es, m.isEmpty = true →
        (m.Settled ↔ (m.result = .isEmpty true → EmptyAt blank m.loaded m.reloaded)) :=
  ⟨by decide,sizes_meaningful (by decide) (schedule_runs (by decide)) (by decide)⟩

def untilEmpty : List (Event Bool (BitVec 64) Nat) :=
  ((play (schedule (word two)) (initial (word two) blank) neverEmpty.dropLast).getD ([],initial (word two) blank)).1

theorem untilEmpty_unseen : ¬ EmptiesSeen blank (untilEmpty++[.ret true (.isEmpty true)]) := by
  intro seen
  obtain ⟨before,during,shape,_,here,s,after,part,reached,same⟩ := seen untilEmpty true [] rfl
  have start : before.length = 7 := by
    have only : ∀ i < 24, untilEmpty[i]? = some (.call true .empty) → i = 7 := by decide
    apply only
    · have length : untilEmpty.length = 24 := by decide
      rw [shape,List.length_append,List.length_cons] at length
      omega
    · rw [shape]
      simp
  have never : ∀ n < 25, 8 ≤ n → (pushWins (untilEmpty.take n)).length ≠ (popWins (untilEmpty.take n)).length := by decide
  have low := after.length_le
  have high := part.length_le
  have length : untilEmpty.length = 24 := by decide
  rw [List.length_append,List.length_singleton,start] at low
  have counted := reached_counted (by decide) reached (prefix_few part (by decide))
  apply never here.length (by omega) low
  rw [← List.prefix_iff_eq_take.mp part,← counted.head,← counted.tail,same]

theorem throughput_wraps :
    (∃ follows : (play (schedule (word two)) (initial (word two) blank) throughput).isSome,
      let run := (play (schedule (word two)) (initial (word two) blank) throughput).get follows
      Runs (Step (word two)) (initial (word two) blank) run.1 run.2 ∧
        .ret true (.size (BitVec.ofNat 64 (2^64-1))) ∈ run.1 ∧ ¬ SizesBounded two run.1) ∧
    ∃ follows : (play (schedule (word two)) (initial (word two) blank) neverEmpty).isSome,
      let run := (play (schedule (word two)) (initial (word two) blank) neverEmpty).get follows
      Runs (Step (word two)) (initial (word two) blank) run.1 run.2 ∧ ¬ EmptiesSeen blank run.1 := by
  refine ⟨⟨by decide,schedule_runs (by decide),by decide,?_⟩,by decide,schedule_runs (by decide),?_⟩
  · intro bounded
    exact absurd (bounded true (BitVec.ofNat 64 (2^64-1)) (by decide)) (by decide)
  · intro seen
    apply untilEmpty_unseen
    exact seen

end Chronos.MpmcQueue
