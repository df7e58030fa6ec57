import Chronos.MpmcLinear

namespace Chronos.MpmcQueue

-- What the calls of one thread have handed over, by the time they return: tickets
-- and values of its pops, values accepted and refused of its pushes.
variable {Tid W T : Type} [DecidableEq Tid] {c : Capacity}

def Event.received (t : Tid) : Event Tid W T → Option (W × T)
  | .ret u (.popped pos v) => if u = t then some (pos,v) else none
  | _ => none

def Event.taken (t : Tid) : Event Tid W T → Option T
  | .ret u (.pushed v _) => if u = t then some v else none
  | _ => none

def Event.refused (t : Tid) : Event Tid W T → Option T
  | .ret u (.full v) => if u = t then some v else none
  | _ => none

def Event.asked (t : Tid) : Event Tid W T → Nat
  | .call u .tryPop => if u = t then 1 else 0
  | _ => 0

def Event.denied (t : Tid) : Event Tid W T → Nat
  | .ret u .none => if u = t then 1 else 0
  | _ => 0

def received (t : Tid) (es : List (Event Tid W T)) : List (W × T) := es.filterMap (Event.received t)
def accepted (t : Tid) (es : List (Event Tid W T)) : List T := es.filterMap (Event.taken t)
def refused (t : Tid) (es : List (Event Tid W T)) : List T := es.filterMap (Event.refused t)
def popCalls (t : Tid) (es : List (Event Tid W T)) : Nat := (es.map (Event.asked t)).sum
def denials (t : Tid) (es : List (Event Tid W T)) : Nat := (es.map (Event.denied t)).sum

theorem received_snoc (t : Tid) (es : List (Event Tid W T)) (e : Event Tid W T) :
    received t (es++[e]) = received t es++(e.received t).toList := filterMap_snoc _ _ _
theorem accepted_snoc (t : Tid) (es : List (Event Tid W T)) (e : Event Tid W T) :
    accepted t (es++[e]) = accepted t es++(e.taken t).toList := filterMap_snoc _ _ _
theorem refused_snoc (t : Tid) (es : List (Event Tid W T)) (e : Event Tid W T) :
    refused t (es++[e]) = refused t es++(e.refused t).toList := filterMap_snoc _ _ _

theorem popCalls_snoc (t : Tid) (es : List (Event Tid W T)) (e : Event Tid W T) :
    popCalls t (es++[e]) = popCalls t es+e.asked t := by simp [popCalls]
theorem denials_snoc (t : Tid) (es : List (Event Tid W T)) (e : Event Tid W T) :
    denials t (es++[e]) = denials t es+e.denied t := by simp [denials]

def popsBy (t : Tid) (es : List (Event Tid W T)) : List W :=
  (popWins es).filterMap fun w => if w.1 = t then some w.2 else none

theorem popsBy_snoc (t : Tid) (es : List (Event Tid W T)) (e : Event Tid W T) : popsBy t (es++[e]) = popsBy t es++
    (e.popWin.toList.filterMap fun w => if w.1 = t then some w.2 else none) := by
  rw [popsBy,popWins_snoc,List.filterMap_append]
  rfl

theorem pushesBy_snoc (t : Tid) (es : List (Event Tid W T)) (e : Event Tid W T) : pushesBy t (es++[e]) = pushesBy t es++
    (e.pushWin.toList.filterMap fun w => if w.1 = t then some w.2.2 else none) := by
  rw [pushesBy,pushWins_snoc,List.filterMap_append]
  rfl

def Local.offering : Local W T → Nat
  | .pushLoad _ | .pushSeq _ _ | .pushCas _ _ | .returning (.full _) => 1
  | _ => 0

def Local.asking : Local W T → Nat
  | .popLoad | .popSeq _ | .popCas _ | .returning .none => 1
  | _ => 0

structure Handed (t : Tid) (es : List (Event Tid W T)) (l : Local W T) : Prop where
  pops : popsBy t es = (received t es).map Prod.fst++l.popping.toList
  pushes : pushesBy t es = accepted t es++(l.pushing.map Prod.snd).toList
  offers : (pushCalls t es).length = (pushesBy t es).length+(refused t es).length+l.offering
  asks : popCalls t es = (popsBy t es).length+denials t es+l.asking

section Steps
variable {A : Arithmetic W c} {s s' : State Tid W T c} {t : Tid} {e : Event Tid W T} {es : List (Event Tid W T)}

theorem Handed.other {l : Local W T} (handed : Handed t es l) (other : t ≠ e.thread) : Handed t (es++[e]) l := by
  have calls : pushCalls t (es++[e]) = pushCalls t es := pushCalls_other fun v same => other (by rw [same]; rfl)
  have wins : pushesBy t (es++[e]) = pushesBy t es := pushesBy_other fun pos v same => other (by rw [same]; rfl)
  have pops : popsBy t (es++[e]) = popsBy t es := by
    rw [popsBy_snoc]
    cases e <;> simp_all [Event.popWin,Event.thread,eq_comm]
  have quiet : e.received t = none ∧ e.taken t = none ∧ e.refused t = none ∧ e.asked t = 0 ∧ e.denied t = 0 := by
    cases e with
    | call u op => cases op <;> simp_all [Event.received,Event.taken,Event.refused,Event.asked,Event.denied,Event.thread,eq_comm]
    | ret u r => cases r <;> simp_all [Event.received,Event.taken,Event.refused,Event.asked,Event.denied,Event.thread,eq_comm]
    | _ => exact ⟨rfl,rfl,rfl,rfl,rfl⟩
  obtain ⟨none,taken,full,unasked,undenied⟩ := quiet
  constructor
  · rw [pops,received_snoc,none,Option.toList_none,List.append_nil]
    exact handed.pops
  · rw [wins,accepted_snoc,taken,Option.toList_none,List.append_nil]
    exact handed.pushes
  · rw [calls,wins,refused_snoc,full,Option.toList_none,List.append_nil]
    exact handed.offers
  · rw [popCalls_snoc,denials_snoc,pops,unasked,undenied]
    exact handed.asks

theorem Handed.grow {l l' : Local W T} (handed : Handed t es l)
    (pops : l.popping.toList++(e.popWin.toList.filterMap fun w => if w.1 = t then some w.2 else none) =
      (e.received t).toList.map Prod.fst++l'.popping.toList)
    (pushes : (l.pushing.map Prod.snd).toList++(e.pushWin.toList.filterMap fun w => if w.1 = t then some w.2.2 else none) =
      (e.taken t).toList++(l'.pushing.map Prod.snd).toList)
    (offers : l.offering+(pushCalls t [e]).length = e.pushWin.toList.length+(e.refused t).toList.length+l'.offering)
    (asks : l.asking+e.asked t = e.popWin.toList.length+e.denied t+l'.asking)
    (own : e.thread = t) : Handed t (es++[e]) l' := by
  have calls : pushCalls t (es++[e]) = pushCalls t es++pushCalls t [e] := List.filterMap_append
  constructor
  · rw [popsBy_snoc,handed.pops,List.append_assoc,pops,received_snoc,List.map_append,List.append_assoc]
  · rw [pushesBy_snoc,handed.pushes,List.append_assoc,pushes,accepted_snoc,List.append_assoc]
  · have before := handed.offers
    have one : (e.pushWin.toList.filterMap fun w => if w.1 = t then some w.2.2 else none).length = e.pushWin.toList.length := by
      subst own
      cases e <;> simp [Event.pushWin,Event.thread]
    rw [refused_snoc,calls,pushesBy_snoc]
    simp only [List.length_append,one]
    omega
  · have before := handed.asks
    have one : (e.popWin.toList.filterMap fun w => if w.1 = t then some w.2 else none).length = e.popWin.toList.length := by
      subst own
      cases e <;> simp [Event.popWin,Event.thread]
    rw [popCalls_snoc,denials_snoc,popsBy_snoc]
    simp only [List.length_append,one]
    omega

variable [DecidableEq W]

theorem Handed.own (handed : Handed e.thread es (s.threads e.thread)) (step : Step A s e s') :
    Handed e.thread (es++[e]) (s'.threads e.thread) := by
  cases step with
  | @call s t op free =>
    rw [Event.thread,State.move_self]
    refine handed.grow ?_ ?_ ?_ ?_ rfl <;> cases op <;>
      simp [Event.thread,free,entry,Local.popping,Local.pushing,Local.offering,Local.asking,Event.asked,Event.denied,Event.popWin,Event.received,Event.taken,
        Event.refused,pushCalls,Event.pushWin]
  | @ret s t r at_ =>
    rw [Event.thread,State.move_self]
    refine handed.grow ?_ ?_ ?_ ?_ rfl <;> cases r <;>
      simp [Event.thread,at_,Local.popping,Local.pushing,Local.offering,Local.asking,Event.asked,Event.denied,Event.popWin,Event.received,Event.taken,
        Event.refused,pushCalls,Event.pushWin]
  | @sizeTail s t b h at_ =>
    rw [Event.thread,State.move_self]
    refine handed.grow ?_ ?_ ?_ ?_ rfl <;> cases b <;>
      simp [sized,Event.thread,at_,Local.popping,Local.pushing,Local.offering,Local.asking,Event.asked,Event.denied,Event.popWin,Event.received,Event.taken,
        Event.refused,pushCalls,Event.pushWin]
  | _ at_ =>
    rw [Event.thread,State.move_self]
    refine handed.grow ?_ ?_ ?_ ?_ rfl <;>
      simp [Event.thread,at_,Local.popping,Local.pushing,Local.offering,Local.asking,Event.asked,Event.denied,Event.popWin,Event.received,Event.taken,
        Event.refused,pushCalls,Event.pushWin]

theorem runs_handed {junk : Fin c.size → T} (path : Runs (Step A) (initial A junk) es s) (t : Tid) :
    Handed t es (s.threads t) := by
  have all : ∀ t, Handed t es (s.threads t) := by
    refine path.preserves_history (fun es s => ∀ t, Handed t es (s.threads t)) (fun es s e s' handed step t => ?_)
      fun t => ⟨rfl,rfl,rfl,rfl⟩
    by_cases other : t = e.thread
    · subst other
      exact (handed _).own step
    · rw [step.frame other]
      exact (handed t).other other
  exact all t

end Steps

section Roles
variable {val : W → Nat} {s : State Tid W T c} {t : Tid} {es : List (Event Tid W T)}

theorem sole_producer (acc : Accounted val es s) (only : ∀ u, u ≠ t → pushCalls u es = []) : values es = pushesBy t es := by
  have mine : ∀ w ∈ pushWins es, w.1 = t := by
    intro w won
    by_contra other
    have none := List.sublist_nil.mp (only _ other ▸ (acc.owns w.1).sublist)
    have member : w.2.2 ∈ pushesBy w.1 es := List.mem_filterMap.mpr ⟨w,won,by simp⟩
    rw [none] at member
    cases member
  rw [values,pushesBy,← List.filterMap_eq_map]
  exact List.filterMap_congr fun w won => by simp [mine w won]

theorem sole_consumer (acc : Accounted val es s) (handed : ∀ u, Handed u es (s.threads u))
    (only : ∀ u, u ≠ t → popCalls u es = 0) : (received t es).map Prod.snd <+: values es ∧
      (received t es).length+(s.threads t).popping.toList.length = val s.tail := by
  have mine : ∀ w ∈ popWins es, w.1 = t := by
    intro w won
    by_contra other
    have none := (handed w.1).asks
    have member : w.2 ∈ popsBy w.1 es := List.mem_filterMap.mpr ⟨w,won,by simp⟩
    have some := List.length_pos_of_mem member
    rw [only _ other] at none
    omega
  have tickets : ((received t es).map Prod.fst++(s.threads t).popping.toList).map val = List.range (val s.tail) := by
    rw [← (handed t).pops,← acc.ordered.2,popsBy,List.map_filterMap,← List.filterMap_eq_map]
    exact List.filterMap_congr fun w won => by simp [mine w won]
  have count := congrArg List.length tickets
  simp only [List.length_map,List.length_append,List.length_range] at count
  refine ⟨List.prefix_iff_getElem?.mpr fun i below => ?_,count⟩
  have within : i < (received t es).length := by simpa using below
  have ticket : val (received t es)[i].1 = i := by
    have here := congrArg (·[i]?) tickets
    simp only [List.map_append,List.map_map] at here
    rw [List.getElem?_append_left (by simpa using within),List.getElem?_range (by omega)] at here
    simpa [within] using here
  have returned : Event.ret t (.popped (received t es)[i].1 (received t es)[i].2) ∈ es := by
    obtain ⟨e,member,gave⟩ := List.mem_filterMap.mp (List.getElem_mem within)
    cases e with
    | ret u r =>
      cases r with
      | popped pos v =>
        obtain ⟨rfl,same⟩ := Option.ite_none_right_eq_some.mp gave
        rw [← Option.some.inj same]
        exact member
      | _ => cases gave
    | _ => cases gave
  have value := (acc.traced.popReturned t _ _ returned).2
  rw [ticket] at value
  rw [value,List.getElem_map]

end Roles
end Chronos.MpmcQueue
