import Chronos.MpmcSequential

namespace Chronos.MpmcQueue

variable {Tid W T : Type} {c : Capacity}

def Event.result : Event Tid W T → Option (Result W T)
  | .ret _ r => some r
  | _ => none

def results (es : List (Event Tid W T)) : List (Result W T) := es.filterMap Event.result
def outputs (es : List (Event Tid W T)) : List T := es.flatMap Event.output
def failures (es : List (Event Tid W T)) : Nat := (es.map Event.failed).sum
def delivered (rs : List (Result W T)) : List T := rs.flatMap Result.output

theorem results_snoc (es : List (Event Tid W T)) (e : Event Tid W T) : results (es++[e]) = results es++e.result.toList := by
  simp only [results,List.filterMap_append]
  cases returned : e.result <;> simp [returned]

theorem failures_snoc (es : List (Event Tid W T)) (e : Event Tid W T) : failures (es++[e]) = failures es+e.failed := by
  simp [failures]

theorem outputs_snoc (es : List (Event Tid W T)) (e : Event Tid W T) : outputs (es++[e]) = outputs es++e.output := by
  simp [outputs]

section Calls
variable [DecidableEq Tid] [DecidableEq W] {A : Arithmetic W c} {s s' after : State Tid W T c} {t : Tid} {op : Call T}
variable {es : List (Event Tid W T)} {e : Event Tid W T}

theorem called_alone (quiet : Quiescent s) (tame : pushDiff A s ≤ 0 ∧ popDiff A s ≤ 0) (path : Runs (Step A) (s.move t (entry op)) es s')
    (own : ∀ e ∈ es, e.thread = t) (inside : results es = []) :
    Serving A s t op (outputs es) s' ∧ s'.threads t ≠ .idle ∧ (s'.threads t).remaining+es.length ≤ 6+2*failures es := by
  generalize origin : s.move t (entry op) = start at path
  induction path with
  | nil =>
    subst origin
    refine ⟨.begin A s t op,?_,?_⟩ <;> cases op <;> simp [entry,Local.remaining,failures]
  | step _ taken ih =>
    subst origin
    rename_i es middle e after _
    rw [results_snoc,List.append_eq_nil_iff] at inside
    obtain ⟨serving,_,near⟩ := ih (fun e member => own e (List.mem_append_left _ member)) inside.1
    rcases serving.step quiet taken (own e (by simp)) with ⟨r,rfl,_⟩ | ⟨_,still,serving,nearer⟩
    · cases inside.2
    · rw [outputs_snoc,failures_snoc,List.length_append,List.length_singleton]
      exact ⟨serving,still,by omega⟩

structure CallAlone (A : Arithmetic W c) (s : State Tid W T c) (t : Tid) (op : Call T) (es : List (Event Tid W T))
    (r : Result W T) (s' : State Tid W T c) : Prop where
  path : Runs (Step A) s (.call t op::es++[.ret t r]) s'
  own : ∀ e ∈ es, e.thread = t
  inside : results es = []

theorem CallAlone.served (quiet : Quiescent s) (tame : pushDiff A s ≤ 0 ∧ popDiff A s ≤ 0) (alone : CallAlone A s t op es r s') :
    Served A s op r s' ∧ r.output = outputs es := by
  obtain ⟨start,begins,rest⟩ := alone.path.cons_inv
  cases begins with
  | call =>
    obtain ⟨last,path,returns⟩ := rest.snoc_inv
    obtain ⟨serving,_⟩ := called_alone quiet tame path alone.own alone.inside
    rcases serving.step quiet returns rfl with ⟨_,same,output,_,served⟩ | ⟨inside,_⟩
    · cases same
      exact ⟨served,output⟩
    · exact absurd rfl (inside r)

theorem advance_run (busy : s.threads t ≠ .idle) : ∃ e s', advance A s t .run = some (e,s') ∧ e.thread = t := by
  cases here : s.threads t with
  | idle => exact absurd here busy
  | pushCas | popCas =>
    simp only [advance,here]
    split <;> exact ⟨_,_,rfl,rfl⟩
  | _ =>
    simp only [advance,here]
    exact ⟨_,_,rfl,rfl⟩

theorem Serving.unfailed {out : List T} (serving : Serving A s t op out after) (moved : advance A after t .run = some (e,s')) :
    e.failed = 0 := by
  cases serving <;>
    simp only [advance,State.move_self,State.move_head,State.move_tail,if_true,Option.some.injEq,Prod.mk.injEq] at moved <;>
    obtain ⟨rfl,_⟩ := moved <;> rfl

theorem Serving.returns {out : List T} (quiet : Quiescent s) (tame : pushDiff A s ≤ 0 ∧ popDiff A s ≤ 0)
    (serving : Serving A s t op out after) (busy : after.threads t ≠ .idle) :
    ∃ es r s', Runs (Step A) after (es++[.ret t r]) s' ∧ (∀ e ∈ es, e.thread = t) ∧ results es = [] := by
  generalize far : (after.threads t).remaining = n
  induction n using Nat.strong_induction_on generalizing after out with
  | _ n ih =>
    obtain ⟨e,next,moved,own⟩ := advance_run (A:=A) busy
    have taken := advance_sound moved
    have clean := serving.unfailed moved
    rcases serving.step quiet taken own with ⟨r,rfl,_⟩ | ⟨inside,still,serving',nearer⟩
    · exact ⟨[],r,next,.single taken,nofun,rfl⟩
    · obtain ⟨es,r,s',path,own',quietly⟩ := ih _ (by omega) serving' still rfl
      have goes : e.result = none := by
        cases e with
        | ret u r => exact absurd (own ▸ rfl) (inside r)
        | _ => rfl
      refine ⟨e::es,r,s',path.cons taken,?_,?_⟩
      · rintro e' member
        rcases List.mem_cons.mp member with rfl | later
        · exact own
        · exact own' e' later
      · rw [results,List.filterMap_cons_none goes]
        exact quietly

theorem call_returns (quiet : Quiescent s) (tame : pushDiff A s ≤ 0 ∧ popDiff A s ≤ 0) (t : Tid) (op : Call T) :
    ∃ es r s', CallAlone A s t op es r s' := by
  have busy : (s.move t (entry op)).threads t ≠ .idle := by cases op <;> simp [entry]
  obtain ⟨es,r,s',path,own,inside⟩ := (Serving.begin A s t op).returns quiet tame busy
  exact ⟨es,r,s',path.cons (.call (quiet t)),own,inside⟩

theorem Serving.others {out : List T} (serving : Serving A s t op out after) (other : u ≠ t) : after.threads u = s.threads u := by
  cases serving
  case returning served => rw [State.move_other _ _ other,served.threads]
  all_goals exact State.move_other _ _ other

theorem Serving.data {out : List T} (serving : Serving A s t op out after) {i : Fin c.size}
    (apart : i ≠ A.slot s.head ∨ pushDiff A s ≠ 0) : (after.slots i).data = (s.slots i).data := by
  cases serving with
  | pushStore free =>
    have other := apart.resolve_right (not_not_intro free)
    exact (State.writeData_data _ _ _ _).trans (if_neg other)
  | returning served =>
    cases served with
    | pushed free =>
      have other := apart.resolve_right (not_not_intro free)
      exact (State.writeSeq_data _ _ _ _).trans ((State.writeData_data _ _ _ _).trans (if_neg other))
    | popped => exact State.writeSeq_data _ _ _ _
    | _ => rfl
  | _ => rfl

theorem Step.of_quiescent (quiet : s.threads e.thread = .idle) (step : Step A s e s') :
    ∃ t op, e = .call t op ∧ s' = s.move t (entry op) := by
  obtain ⟨choice,moved⟩ := advance_complete step
  simp only [advance,quiet] at moved
  cases choice with
  | call op =>
    obtain ⟨same,moved⟩ := Prod.mk.inj (Option.some.inj moved)
    exact ⟨_,op,same.symm,moved.symm⟩
  | run | spurious => cases moved

def SequentialStep (A : Arithmetic W c) (s : State Tid W T c) (e : Event Tid W T) (s' : State Tid W T c) : Prop :=
  Step A s e s' ∧ ((∃ t op, e = .call t op) → Quiescent s)

end Calls

section Runs
variable [DecidableEq Tid]

inductive Standing (p : Nat) (items : List T) : State Tid (BitVec 64) T c → Prop where
  | resting (quiet : Quiescent s) (rest : Rest s p items) : Standing p items s
  | calling (quiet : Quiescent s) (rest : Rest s p items) (serving : Serving (word c) s t op out s')
      (busy : s'.threads t ≠ .idle) : Standing p items s'

variable {s s' : State Tid (BitVec 64) T c} {p : Nat} {items : List T}
variable {es : List (Event Tid (BitVec 64) T)} {e : Event Tid (BitVec 64) T}

omit [DecidableEq Tid] in
theorem rest_tame (rest : Rest s p items) (least : 2 ≤ c.size) : pushDiff (word c) s ≤ 0 ∧ popDiff (word c) s ≤ 0 := by
  rw [rest.pushDiff least,rest.popDiff least]
  constructor <;> split <;> omega

omit [DecidableEq Tid] in
theorem Served.quiet {r : Result (BitVec 64) T} {op : Call T} (served : Served (word c) s op r s') (quiet : Quiescent s) :
    Quiescent s' := by
  intro u
  rw [served.threads]
  exact quiet u

theorem Standing.step (least : 2 ≤ c.size) (standing : Standing p items s) (step : SequentialStep (word c) s e s') :
    ∃ items', Runs (FifoStep c.size) items e.result.toList items' ∧ Standing (p+(delivered e.result.toList).length) items' s' := by
  obtain ⟨taken,alone⟩ := step
  cases standing with
  | resting quiet rest =>
    obtain ⟨t,op,rfl,rfl⟩ := taken.of_quiescent (quiet _)
    refine ⟨items,.nil,.calling quiet rest (.begin _ s t op) ?_⟩
    cases op <;> simp [entry]
  | @calling s₀ t _ _ _ quiet rest serving busy =>
    have own : e.thread = t := by
      by_contra other
      obtain ⟨u,op,rfl,_⟩ := taken.of_quiescent ((serving.others other).trans (quiet _))
      exact busy (alone ⟨u,op,rfl⟩ t)
    rcases serving.step quiet taken own with ⟨r,rfl,_,_,served⟩ | ⟨inside,still,serving',_⟩
    · obtain ⟨items',fifo,rest'⟩ := rest.served least served
      refine ⟨items',.single fifo,.resting (served.quiet quiet) ?_⟩
      simpa [Event.result,delivered] using rest'
    · have goes : e.result = none := by
        cases e with
        | ret u r => exact absurd (own ▸ rfl) (inside r)
        | _ => rfl
      rw [goes]
      exact ⟨items,.nil,.calling quiet rest serving' still⟩

theorem runs_standing (least : 2 ≤ c.size) (standing : Standing p items s) (path : Runs (SequentialStep (word c)) s es s') :
    ∃ items', Runs (FifoStep c.size) items (results es) items' ∧ Standing (p+(delivered (results es)).length) items' s' := by
  induction path with
  | nil => exact ⟨items,.nil,standing⟩
  | step _ taken ih =>
    obtain ⟨middle,fifo,standing⟩ := ih
    obtain ⟨last,more,standing⟩ := standing.step least taken
    refine ⟨last,?_,?_⟩
    · rw [results_snoc]
      exact fifo.append more
    · rw [results_snoc,delivered,List.flatMap_append,List.length_append,← Nat.add_assoc]
      exact standing

theorem Standing.held (least : 2 ≤ c.size) (standing : Standing p items s) : items.length ≤ c.size ∧
    ∀ i v, items[i]? = some v → (s.slots (c.index (p+i))).data = v := by
  cases standing with
  | resting quiet rest => exact ⟨rest.room,fun i v held => by rw [rest.filled i v held]⟩
  | @calling s₀ _ _ _ _ quiet rest serving busy =>
    refine ⟨rest.room,fun i v held => ?_⟩
    have bound := (List.getElem?_eq_some_iff.mp held).1
    rw [serving.data,rest.filled i v held]
    by_cases room : items.length < c.size
    · rw [rest.head,slot_low]
      exact .inl (index_apart p bound (by omega)).symm
    · rw [rest.pushDiff least,if_neg room]
      exact .inr (by omega)

omit [DecidableEq Tid] in
theorem initial_rest (junk : Fin c.size → T) : Rest (initial (word c) junk : State Tid (BitVec 64) T c) 0 [] := by
  refine ⟨rfl,rfl,Nat.zero_le _,nofun,fun i _ near => ?_⟩
  show BitVec.ofNat 64 (c.index (0+i) : Fin c.size) = low (0+i)
  rw [Nat.zero_add,show ((c.index i : Fin c.size) : Nat) = i from Nat.mod_eq_of_lt near]
  rfl

end Runs

-- What a caller with the queue to itself may expect: a call makes at most five
-- accesses and two more for each exchange that failed; the calls answer as a
-- bounded queue does; and what is in the queue is still in its slot.
structure BoundedQueue (c : Capacity) (es : List (Event Unit (BitVec 64) T)) (s : State Unit (BitVec 64) T c) : Prop where
  returns : ∀ earlier op during later, es = earlier++.call () op::during++later → results during = [] →
    during.length ≤ 5+2*failures during
  proceeds : s.threads () ≠ .idle → ∃ e s', advance (word c) s () .run = some (e,s')
  fifo : ∃ items, Runs (FifoStep c.size) [] (results es) items ∧ items.length ≤ c.size ∧
    ∀ i v, items[i]? = some v → (s.slots (c.index ((delivered (results es)).length+i))).data = v

theorem remaining_pos {l : Local W T} (busy : l ≠ .idle) : 1 ≤ l.remaining := by
  cases l <;> simp [Local.remaining] at busy ⊢

section Single
variable {junk : Fin c.size → T} {es : List (Event Unit (BitVec 64) T)} {s : State Unit (BitVec 64) T c}

theorem single_caller (path : Runs (Step (word c)) s es s') : Runs (SequentialStep (word c)) s es s' := by
  refine path.weaken fun s e s' step => ⟨step,?_⟩
  rintro ⟨_,_,rfl⟩ _
  cases step with
  | call free => exact free

theorem single_standing (least : 2 ≤ c.size) (path : Runs (Step (word c)) (initial (word c) junk) es s) :
    ∃ items, Runs (FifoStep c.size) [] (results es) items ∧ Standing (delivered (results es)).length items s := by
  have run := runs_standing least (.resting (fun _ => rfl) (initial_rest junk)) (single_caller path)
  rwa [Nat.zero_add] at run

theorem bounded_queue (least : 2 ≤ c.size) (path : Runs (Step (word c)) (initial (word c) junk) es s) : BoundedQueue c es s := by
  refine ⟨fun earlier op during later shape inside => ?_,fun busy => ?_,?_⟩
  · subst shape
    rw [List.append_assoc,List.cons_append] at path
    obtain ⟨before,next,front,begins,rest⟩ := path.split_at
    obtain ⟨after,along,_⟩ := rest.append_inv
    obtain ⟨items,_,standing⟩ := single_standing least front
    cases begins with
    | call free =>
      cases standing with
      | calling _ _ _ busy => exact absurd free busy
      | resting quiet rest =>
        obtain ⟨_,still,near⟩ := called_alone quiet (rest_tame rest least) along (fun _ _ => rfl) inside
        have last := remaining_pos still
        omega
  · obtain ⟨e,next,moved,_⟩ := advance_run (A:=word c) busy
    exact ⟨e,next,moved⟩
  · obtain ⟨items,fifo,standing⟩ := single_standing least path
    exact ⟨items,fifo,standing.held least⟩

-- With one slot a second push finds "free for ticket 1" where ticket 0 has been published.
def one : Capacity := ⟨0,by decide⟩

theorem not_bounded {es : List (Event Unit (BitVec 64) T)} {s : State Unit (BitVec 64) T one}
    (twice : results es = [.pushed v p,.pushed w q]) : ¬ BoundedQueue one es s := by
  intro bounded
  obtain ⟨items,fifo,_⟩ := bounded.fifo
  rw [twice] at fifo
  obtain ⟨middle,first,rest⟩ := fifo.cons_inv
  obtain ⟨last,second,_⟩ := rest.cons_inv
  cases first
  cases second with
  | pushed room => exact Nat.lt_irrefl 1 room

end Single

def pushedTwice : List (Unit × Choice Nat) :=
  ((),.call (.tryPush 7))::List.replicate 6 ((),.run)++((),.call (.tryPush 8))::List.replicate 6 ((),.run)

theorem bounded_iff (c : Capacity) :
    (∀ (T : Type) (junk : Fin c.size → T) (es : List (Event Unit (BitVec 64) T)) (s : State Unit (BitVec 64) T c),
      Runs (Step (word c)) (initial (word c) junk) es s → BoundedQueue c es s) ↔ 2 ≤ c.size := by
  constructor
  · intro bounded
    by_contra few
    obtain ⟨exponent,fits⟩ := c
    have none : exponent = 0 := by
      by_contra some
      exact few (Capacity.two_le _ (Nat.one_le_iff_ne_zero.mpr some))
    subst none
    have run := schedule_runs (show (play (schedule (word one)) (initial (word one) fun _ => 0) pushedTwice).isSome by decide)
    exact not_bounded (v:=7) (p:=0) (w:=8) (q:=1) (by decide) (bounded Nat _ _ _ run)
  · intro least T junk es s path
    exact bounded_queue least path

theorem pushedTwice_overwrites :
    ∃ follows : (play (schedule (word one)) (initial (word one) (fun _ => 0)) pushedTwice).isSome,
      let run := (play (schedule (word one)) (initial (word one) (fun _ => 0)) pushedTwice).get follows
      Runs (Step (word one)) (initial (word one) (fun _ => 0)) run.1 run.2 ∧
        results run.1 = [.pushed 7 0,.pushed 8 1] ∧ (run.2.slots (one.index 0)).data = 8 ∧ ¬ BoundedQueue one run.1 run.2 :=
  ⟨by decide,schedule_runs (by decide),by decide,by decide,not_bounded (show results _ = [.pushed 7 0,.pushed 8 1] by decide)⟩

def contents (s : State Tid (BitVec 64) T c) : List T :=
  (List.range (s.head-s.tail).toNat).map fun i => (s.slots (c.index (s.tail.toNat+i))).data

section Recovered
variable [DecidableEq Tid] {s s' : State Tid (BitVec 64) T c}

omit [DecidableEq Tid] in
theorem Rest.contents (rest : Rest s p items) : contents s = items := by
  have most := c.size_le
  have room := rest.room
  have count : (s.head-s.tail).toNat = items.length := by
    rw [rest.head,rest.tail]
    show (BitVec.ofNat 64 (p+items.length)-BitVec.ofNat 64 p).toNat = _
    rw [BitVec.ofNat_add,BitVec.add_comm,BitVec.add_sub_cancel,BitVec.toNat_ofNat]
    omega
  have place : ∀ i, c.index (s.tail.toNat+i) = c.index (p+i) := by
    intro i
    have divides : c.size ∣ 2^64 := Nat.pow_dvd_pow 2 (by have := c.fits; omega)
    rw [rest.tail,Capacity.index_eq,low,BitVec.toNat_ofNat,Nat.add_mod,Nat.mod_mod_of_dvd _ divides,← Nat.add_mod]
  unfold MpmcQueue.contents
  rw [count]
  apply List.ext_getElem?
  intro i
  by_cases inside : i < items.length
  · have held := rest.filled i items[i] (List.getElem?_eq_getElem inside)
    simp [inside,place,held]
  · simp [inside]

theorem low_of_toNat {w : BitVec 64} {n : Nat} (same : w.toNat = n) : w = low n := by
  subst same
  exact (BitVec.ofNat_toNat 64 w).symm

omit [DecidableEq Tid] in
theorem Inv.rest {pushed : List T} (inv : Inv BitVec.toNat pushed s) (quiet : Quiescent s) :
    Rest s s.tail.toNat (MpmcQueue.contents s) := by
  have order := inv.order
  have room := inv.room
  have unwritten : ∀ t pos, (s.threads t).writing = some pos → False := by
    intro t pos held
    rw [quiet t] at held
    cases held
  have unread : ∀ t pos, (s.threads t).reading = some pos → False := by
    intro t pos held
    rw [quiet t] at held
    cases held
  have count : (MpmcQueue.contents s).length = s.head.toNat-s.tail.toNat := by
    rw [MpmcQueue.contents,List.length_map,List.length_range,BitVec.toNat_sub_of_le (BitVec.le_def.mpr order)]
  refine ⟨(BitVec.ofNat_toNat 64 s.tail).symm,?_,by omega,fun i v held => ?_,fun i after near => ?_⟩
  · rw [count,Nat.add_sub_cancel' order]
    exact (BitVec.ofNat_toNat 64 s.head).symm
  · obtain ⟨bound,data⟩ := List.getElem?_eq_some_iff.mp held
    simp only [MpmcQueue.contents,List.getElem_map,List.getElem_range] at data
    obtain ⟨seq,_⟩ := inv.filled (s.tail.toNat+i) (Nat.le_add_right _ _) (by omega) fun t pos writes => (unwritten t pos writes).elim
    rw [← data,← low_of_toNat seq]
  · have seq := inv.vacant (s.tail.toNat+i) (by omega) (by omega) fun t pos reads => (unread t pos reads).elim
    exact low_of_toNat seq

end Recovered

structure ExactAgain [DecidableEq Tid] (s : State Tid (BitVec 64) T c) : Prop where
  order : s.tail.toNat ≤ s.head.toNat
  returns : ∀ t op, ∃ es r s', CallAlone (word c) s t op es r s'
  pushes : ∀ t v es r s', CallAlone (word c) s t (.tryPush v) es r s' → s.head.toNat-s.tail.toNat < c.size →
    r = .pushed v s.head ∧ s'.head = s.head+1 ∧ s'.tail = s.tail ∧ ∀ i, i ≠ c.index s.head.toNat → s'.slots i = s.slots i
  refuses : ∀ t v es r s', CallAlone (word c) s t (.tryPush v) es r s' → ¬ s.head.toNat-s.tail.toNat < c.size →
    r = .full v ∧ s' = s ∧ outputs es = []
  pops : ∀ t es r s', CallAlone (word c) s t .tryPop es r s' → s.tail.toNat < s.head.toNat →
    (∃ v, r = .popped s.tail v ∧ outputs es = [v]) ∧ s'.tail = s.tail+1 ∧ s'.head = s.head ∧
      ∀ i, i ≠ c.index s.tail.toNat → s'.slots i = s.slots i
  finds : ∀ t es r s', CallAlone (word c) s t .tryPop es r s' → ¬ s.tail.toNat < s.head.toNat →
    r = .none ∧ s' = s ∧ outputs es = []
  fifo : ∀ es s', Runs (SequentialStep (word c)) s es s' → ∃ items, Runs (FifoStep c.size) (contents s) (results es) items ∧
    (Quiescent s' → contents s' = items)

theorem exact_again {Tid T : Type} [DecidableEq Tid] {c : Capacity} {junk : Fin c.size → T}
    {es : List (Event Tid (BitVec 64) T)} {s : State Tid (BitVec 64) T c} (power : 1 ≤ c.exponent)
    (path : Runs (Step (word c)) (initial (word c) junk) es s) (few : (pushWins es).length < 2^63) (quiet : Quiescent s) :
    ExactAgain s := by
  have least := c.two_le power
  have most := c.size_le
  have fits : Fits c (2^63) es := by simp only [Fits]; omega
  have inv := (runs_accounted (word_faithful c) least path fits).inv
  have rest := inv.rest quiet
  have tame := rest_tame rest least
  have push := rest.pushDiff least
  have pop := rest.popDiff least
  have order := inv.order
  have count : (contents s).length = s.head.toNat-s.tail.toNat := by
    rw [contents,List.length_map,List.length_range,BitVec.toNat_sub_of_le (BitVec.le_def.mpr order)]
  have slot := (word_faithful c).slot
  refine ⟨order,call_returns quiet tame,?_,?_,?_,?_,?_⟩
  · intro t v es r s' alone room
    obtain ⟨served,_⟩ := alone.served quiet tame
    rw [count,if_pos room] at push
    cases served with
    | full behind => omega
    | sized asks => cases asks
    | pushed free => exact ⟨rfl,rfl,rfl,fun i other => pushAt_slots _ _ _ (slot s.head ▸ other)⟩
  · intro t v es r s' alone crowded
    obtain ⟨served,output⟩ := alone.served quiet tame
    rw [count,if_neg crowded] at push
    cases served with
    | full behind => exact ⟨rfl,rfl,output.symm⟩
    | sized asks => cases asks
    | pushed free => omega
  · intro t es r s' alone some
    obtain ⟨served,output⟩ := alone.served quiet tame
    rw [if_neg (fun none => by rw [none,List.length_nil] at count; omega)] at pop
    cases served with
    | none behind => omega
    | sized asks => cases asks
    | popped ready => exact ⟨⟨_,rfl,output.symm⟩,rfl,rfl,fun i other => popAt_slots _ _ (slot s.tail ▸ other)⟩
  · intro t es r s' alone none
    obtain ⟨served,output⟩ := alone.served quiet tame
    rw [if_pos (List.eq_nil_of_length_eq_zero (by omega))] at pop
    cases served with
    | none behind => exact ⟨rfl,rfl,output.symm⟩
    | sized asks => cases asks
    | popped ready => omega
  · intro es s' path
    obtain ⟨items,fifo,standing⟩ := runs_standing least (.resting quiet rest) path
    refine ⟨items,fifo,fun settled => ?_⟩
    cases standing with
    | resting _ rest => exact rest.contents
    | calling _ _ _ busy => exact absurd (settled _) busy

theorem exact_again_handOver :
    ∃ follows : (play (schedule (word two)) (initial (word two) (fun _ => 0)) handOver).isSome,
      ExactAgain ((play (schedule (word two)) (initial (word two) (fun _ => 0)) handOver).get follows).2 := by
  refine ⟨by decide,exact_again (by decide) (schedule_runs (by decide)) (by decide) ?_⟩
  intro t
  cases t <;> decide

end Chronos.MpmcQueue
